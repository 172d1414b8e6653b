import Fusa.Smart.RequestsInv

/-! Completion accounting is exact as long as direct calls find their queue idle. -/
namespace Fusa.Smart.Requests
open Transition Function List Option Nat
variable {cfg : Config} {s : State} {hand : List Completion}

theorem sizes_filter (cs : List Completion) (n : ℕ) :
    (cs.map fun c => if c.node = n then c.size else 0).sum = sizes (cs.filter (·.node = n)) := by
  induction cs with
  | nil => rfl
  | cons c cs ih =>
    rw [map_cons, sum_cons, ih, filter_cons]
    split_ifs with h h' h'
    · rw [sizes_cons]
    · exact absurd (decide_eq_true h) h'
    · exact absurd (of_decide_eq_true h') h
    · rw [zero_add]

theorem pending_takeCq (h : Inv cfg [] s) (q count m : ℕ) :
    (takeCq s q count).pending cfg (((s.cq q).take count).map Prod.fst) m = s.pending cfg [] m := by
  simp only [State.pending, takeCq, filter_nil, nil_append]
  rcases eq_or_ne (cfg.cqOf m) q with rfl | hq
  · rw [update_self, ← append_assoc, ← filter_append, ← map_append, take_append_drop]
  · have hnil : (((s.cq q).take count).map Prod.fst).filter (·.node = m) = [] := by
      rw [filter_eq_nil_iff]
      intro c hc hm
      obtain ⟨e, he, rfl⟩ := mem_map.mp hc
      rw [← (h.cq q e (mem_of_mem_take he)).1, of_decide_eq_true hm] at hq
      exact hq rfl
    rw [hnil, update_of_ne hq, nil_append]

theorem Inv.takeCq (h : Inv cfg [] s) (q count : ℕ) :
    Inv cfg (((s.cq q).take count).map Prod.fst) (takeCq s q count) := by
  have hp := funext (pending_takeCq h q count)
  refine ⟨?_, h.inflight, fun n => ?_, ?_, ?_, fun q' e he => ?_, h.buf, h.buf_lt, ?_, ?_,
    h.returned⟩
  · rw [hp]
    exact h.booked
  · have hn := h.polled n
    simp only [Requests.takeCq, sizes_filter]
    simp only [filter_nil, sizes_nil] at hn
    omega
  · rw [hp]
    exact h.sorted
  · rw [hp]
    exact h.good
  · simp only [Requests.takeCq] at he
    rcases eq_or_ne q' q with rfl | hq
    · rw [update_self] at he
      exact h.cq q' e (mem_of_mem_drop he)
    · rw [update_of_ne hq] at he
      exact h.cq q' e he
  · rw [hp]
    exact h.waiting
  · rw [hp]
    exact h.spinning

theorem pending_cons (cfg : Config) (c : Completion) (hand : List Completion) (s : State)
    (n : ℕ) : s.pending cfg (c :: hand) n =
      (if c.node = n then [c] else []) ++ s.pending cfg hand n := by
  unfold State.pending
  rw [filter_cons]
  split_ifs with h h' h'
  · rfl
  · exact absurd (of_decide_eq_true h) h'
  · exact absurd (decide_eq_true h') h
  · rfl

variable {c : Completion} {s' : State}

theorem Waiting.Ok.account {clock : ℕ} {ack ack' : ℕ → ℕ} {P Q : ℕ → List Completion} {w : Waiting}
    (h : w.Ok clock ack P) (hack : ∀ n, ack' n = ack n + if c.node = n then c.size else 0)
    (hP : ∀ n, P n = (if c.node = n then [c] else []) ++ Q n)
    (hsorted : ∀ n, (P n).Pairwise (·.stamp ≤ ·.stamp)) : w.Ok clock ack' Q := by
  have hmem : ∀ n, ∀ d ∈ Q n, d ∈ P n := by
    intro n d hd
    rw [hP n]
    exact mem_append_right _ hd
  refine ⟨h.stamp_le, fun n d hd hlt => ?_, fun n hn d hd => h.passed n hn d (hmem n d hd)⟩
  have hsnap := h.snapshot n d (hmem n d hd) hlt
  have hsort := hsorted n
  rw [hP n] at hsnap hsort
  rw [hack n]
  split_ifs at hsnap hsort ⊢ with hn
  · -- the one booked is older than what is left
    have hle := (pairwise_cons.mp hsort).1 d hd
    have hc : decide (c.stamp < w.stamp) = true := decide_eq_true (by omega)
    rw [singleton_append, filter_cons, if_pos hc, sizes_cons] at hsnap
    omega
  · rwa [add_zero]

theorem Inv.account (h : Inv cfg (c :: hand) s) (hspin : s.spinning = none) :
    Inv cfg hand (Requests.account s c) := by
  have hpend : ∀ n, (Requests.account s c).pending cfg hand n = s.pending cfg hand n := fun _ => rfl
  have hcons := pending_cons cfg c hand s
  have hgood : c.Good cfg := by
    refine (h.good c.node c ?_).2.1
    rw [hcons, if_pos rfl]
    exact mem_append_left _ (mem_singleton_self c)
  have hack := account_ackReq hgood s
  refine ⟨fun n => ?_, ?_, fun n => ?_, fun n => ?_, fun n d hd => ?_, h.cq, h.buf, h.buf_lt,
    fun t w hw => ?_, fun p hp => ?_, h.returned⟩
  · have hn := h.booked n
    rw [hcons] at hn
    rw [hack, hpend]
    change s.postReq n = _
    split_ifs at hn ⊢
    · rw [singleton_append, sizes_cons] at hn
      omega
    · rw [nil_append] at hn
      omega
  · have hsum := Cover.sum_update (Finset.range cfg.maxNodes)
      (fun m (v : ℕ) => (s.postReq m : ℤ) - v) s.ackReq (Finset.mem_range.mpr hgood.1)
      (s.ackReq c.node + c.size)
    have hfun : (Requests.account s c).ackReq =
        update s.ackReq c.node (s.ackReq c.node + c.size) := by
      funext n
      rw [hack]
      rcases eq_or_ne c.node n with rfl | hne
      · rw [update_self, if_pos rfl]
      · rw [update_of_ne hne.symm, if_neg hne, add_zero]
    have hinf := h.inflight
    rw [account_inflightAck hgood, hfun]
    change _ = ∑ n ∈ Finset.range cfg.maxNodes, ((s.postReq n : ℤ) - _)
    push_cast at hsum
    omega
  · have hn := h.polled n
    rw [filter_cons] at hn
    rw [hack]
    change _ = s.polled n
    split_ifs at hn ⊢ with h1 h2 h2
    · rw [sizes_cons] at hn
      omega
    · exact absurd (decide_eq_true h1) h2
    · exact absurd (of_decide_eq_true h2) h1
    · omega
  · have hn := h.sorted n
    rw [hcons, pairwise_append] at hn
    exact hn.2.1
  · refine h.good n d ?_
    rw [hcons]
    exact mem_append_right _ hd
  · exact (h.waiting t w hw).account hack hcons h.sorted
  · have : s.spinning = some p := hp
    rw [hspin] at this
    exact absurd this (by simp)

theorem account_direct (s : State) (node stamp : ℕ) : account s ⟨node, 0, stamp, 0⟩ = s := by
  simp [account, wrSize]

theorem Inv.foldl_account (h : Inv cfg hand s) (hspin : s.spinning = none) :
    Inv cfg [] (hand.foldl Requests.account s) := by
  induction hand generalizing s with
  | nil => exact h
  | cons c hand ih => exact ih (h.account hspin) hspin

theorem Inv.pollOnce (h : Inv cfg [] s) (hspin : s.spinning = none) (node : ℕ) :
    Inv cfg [] (pollOnce cfg s node) := by
  unfold Requests.pollOnce
  split_ifs with hinf
  · exact h
  · have hall : ((s.cq (cfg.cqOf node)).take 16).all Prod.snd = true := by
      rw [List.all_eq_true]
      intro e he
      exact (h.cq _ e (mem_of_mem_take he)).2
    simp only [hall, if_true]
    exact (h.takeCq (cfg.cqOf node) 16).foldl_account hspin

theorem directBegin_eq (s : State) (node : ℕ) : directBegin s node true =
      { s.push node [⟨node, 0, s.clock, 0⟩] with spinning := some (node, s.clock) } := by
  simp [directBegin, State.push, sizes]

theorem Inv.directBegin (h : Inv cfg [] s) (hspin : s.spinning = none) {node : ℕ}
    (hn : node < cfg.maxNodes) (hcq : s.cq (cfg.cqOf node) = [])
    (hwire : ∀ n < cfg.maxNodes, cfg.cqOf n = cfg.cqOf node → s.wire n = []) :
    Inv cfg [] (directBegin s node true) := by
  have hidle : ∀ n, cfg.cqOf n = cfg.cqOf node → s.pending cfg [] n = [] := by
    intro n hq
    by_contra hne
    obtain ⟨c, hc⟩ := exists_mem_of_ne_nil _ hne
    obtain ⟨hnode, hgood, -⟩ := h.good n c hc
    simp [State.pending, hq, hcq, hwire n (hnode ▸ hgood.1) hq] at hc
  have hgood : Completion.Good cfg ⟨node, 0, s.clock, 0⟩ := ⟨hn, zero_lt_succ _, .inl ⟨rfl, rfl⟩⟩
  have hcs : ∀ c ∈ [(⟨node, 0, s.clock, 0⟩ : Completion)],
      c.node = node ∧ c.Good cfg ∧ c.stamp = s.clock := by
    simpa using hgood
  have hpush := h.push hspin hn hcs
  rw [directBegin_eq]
  refine { hpush with spinning := ?_ }
  rintro _ ⟨⟩
  refine ⟨lt_succ_self _, ?_, fun n hq hne => ?_, fun n hne c hc => ?_⟩
  · change (s.push node _).pending cfg [] node = _
    rw [pending_push, hidle node rfl, if_pos rfl, nil_append]
  · change (s.push node _).pending cfg [] n = _
    rw [pending_push, hidle n hq, if_neg hne, nil_append]
  · change c ∈ (s.push node _).pending cfg [] n at hc
    rw [pending_push, if_neg hne, append_nil] at hc
    exact (h.good n c hc).2.2.ne

theorem Inv.spin (h : Inv cfg [] s) (hs : spin cfg s = some s') : Inv cfg [] s' := by
  obtain ⟨⟨node, stamp⟩, hspin, hs⟩ := bind_eq_some_iff.mp hs
  obtain ⟨⟨c, success⟩, hhead, hs⟩ := bind_eq_some_iff.mp hs
  obtain ⟨rest, hrest⟩ : ∃ rest, s.cq (cfg.cqOf node) = (c, success) :: rest :=
    ⟨_, eq_cons_of_mem_head? hhead⟩
  obtain ⟨hq, hsuccess⟩ := h.cq (cfg.cqOf node) (c, success) (by simp [hrest])
  have hok := h.spinning _ hspin
  have hmem : c ∈ s.pending cfg [] c.node := by
    simp [State.pending, show cfg.cqOf c.node = cfg.cqOf node from hq, hrest]
  have hnode : c.node = node := by
    by_contra hne
    rw [hok.alone c.node hq hne] at hmem
    exact absurd hmem (not_mem_nil)
  have hown := hok.own
  have hc : c = ⟨node, 0, stamp, 0⟩ := by
    rw [hnode, hown] at hmem
    exact mem_singleton.mp hmem
  have hwire : s.wire node = [] := by
    simp only [State.pending, hrest, filter_nil, nil_append, map_cons, hnode,
      decide_true, filter_cons_of_pos, cons_append, List.cons.injEq,
      append_eq_nil_iff] at hown
    exact hown.2.2
  have hdone : (Return.direct stamp).Done s := by
    intro n d hd
    rcases eq_or_ne n node with rfl | hne
    · rw [hwire] at hd
      exact absurd hd (not_mem_nil)
    · exact hok.fresh n hne d (mem_pending_of_wire cfg [] hd)
  have htake := h.takeCq (cfg.cqOf node) 1
  simp only [hrest, take_succ_cons, take_zero, map_cons, map_nil, hc] at htake
  obtain rfl : success = true := hsuccess
  cases hs
  have hlast : Inv cfg [⟨node, 0, stamp, 0⟩] { Requests.takeCq s (cfg.cqOf node) 1 with
      spinning := none, returns := .direct stamp :: s.returns } :=
    { htake with
      spinning := fun p hp => absurd hp (not_mem_none p)
      returned := forall_mem_cons.mpr ⟨⟨hok.stamp_lt, hdone⟩, h.returned⟩ }
  have hend := hlast.account rfl
  rwa [account_direct] at hend

theorem Inv.next (h : Inv cfg [] s) {a : Label} (ha : Calm cfg s a) (hs : next cfg s a = some s') :
    Inv cfg [] s' := by
  cases a with
  | add task node signaled =>
    obtain ⟨hr, hs⟩ := ite_none_right_eq_some.mp hs
    exact h.addRequest hr.2 hs
  | post task failed =>
    obtain rfl : failed = none := ha
    obtain ⟨hr, ⟨⟩⟩ := ite_none_right_eq_some.mp hs
    exact h.postRequest hr.2.2 task
  | sync task failed =>
    obtain rfl : failed = none := ha
    obtain ⟨hr, ⟨⟩⟩ := ite_none_right_eq_some.mp hs
    exact h.syncBegin hr.2.2 task
  | check task =>
    obtain ⟨-, hs⟩ := ite_none_right_eq_some.mp hs
    exact h.check hs
  | poll node =>
    obtain ⟨hr, ⟨⟩⟩ := ite_none_right_eq_some.mp hs
    exact h.pollOnce hr.1 node
  | direct node posted =>
    obtain ⟨rfl, hcq, hwire⟩ := ha
    obtain ⟨hr, ⟨⟩⟩ := ite_none_right_eq_some.mp hs
    exact h.directBegin hr.1 hr.2 hcq hwire
  | spin => exact h.spin hs
  | arrive node success =>
    obtain rfl : success = true := ha
    exact h.arrive hs

/-- Accounting is exact if posts succeed and each direct call finds nothing due in its queue. -/
theorem exact_of_calm (cfg : Config) (s : State) (h : (system cfg).RunWith (Calm cfg) s) :
    Exact cfg s :=
  Inv.exact <| h.invariant (P := Inv cfg []) (by rintro _ rfl; exact inv_initial)
    fun _ _ _ hi ha hn => hi.next ha hn

def twoNodes : Config := ⟨2, by decide, 3, by decide, id⟩

def someCalls : List Label :=
  [.add 0 1 true, .add 0 1 false, .post 0 none, .add 5 0 false, .direct 0 true, .arrive 1 true,
    .arrive 0 true, .spin, .sync 5 none, .arrive 1 true, .poll 1, .arrive 0 true, .poll 0,
    .check 5, .check 5, .check 5]

instance (cfg : Config) (s : State) (a : Label) : Decidable (Calm cfg s a) := by
  cases a <;> unfold Calm <;> infer_instance

theorem exact_someCalls : ∃ s, (system twoNodes).exec initial someCalls = some s ∧
    s.returns = [.sync 3, .direct 1] ∧ s.ackReq 1 = 2 ∧ Exact twoNodes s := by
  obtain ⟨s, hs, hcalm, hr, ha⟩ := (system twoNodes).exists_runWith (Calm twoNodes)
    (fun s => s.returns = [.sync 3, .direct 1] ∧ s.ackReq 1 = 2) rfl someCalls
    (by decide +kernel) (by decide +kernel)
  exact ⟨s, hs, hr, ha, exact_of_calm twoNodes s hcalm⟩

/-- A batch is on its way to node 0 when `read_sync` is called for that node. -/
def readBehindBatch : List Label :=
  [.add 0 0 false, .post 0 none, .direct 0 true, .arrive 0 true, .spin]

theorem not_exact_readBehindBatch : ∃ s, (system twoNodes).Reachable s ∧
    s.returns = [.direct 1] ∧ s.wire 0 = [⟨0, 0, 1, 0⟩] ∧ s.ackReq 0 = 0 ∧ s.polled 0 = 1 ∧
      ¬ Exact twoNodes s := by
  obtain ⟨s, -, hs, h1, h2, h3, h4⟩ := (system twoNodes).exists_reachable (fun s =>
    s.returns = [.direct 1] ∧ s.wire 0 = [⟨0, 0, 1, 0⟩] ∧ s.ackReq 0 = 0 ∧ s.polled 0 = 1) rfl
    readBehindBatch (by decide +kernel)
  refine ⟨s, hs, h1, h2, h3, h4, fun h => ?_⟩
  have := h.attributed 0
  omega

end Fusa.Smart.Requests

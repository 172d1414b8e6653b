import Fusa.Lib.Bump
import Fusa.Smart.Requests

/-! What is pending for each node while tasks post requests and wait for them. -/
namespace Fusa.Smart.Requests
open Transition Function List Option Nat
variable {cfg : Config} {s : State} {hand : List Completion}
  {task node size n : ℕ} {cs : List Completion} {c : Completion} {s' : State} {r : Return}

theorem memNodeId_makeWrId (hn : node < 256) (hs : size < 2 ^ 32) :
    memNodeId (makeWrId task cfg.tid node size) = node := by
  have ht := cfg.tid_lt
  unfold memNodeId makeWrId
  omega

theorem wrSize_makeWrId (hs : size < 2 ^ 32) : wrSize (makeWrId task cfg.tid node size) = size := by
  unfold wrSize makeWrId
  omega

def sizes (cs : List Completion) : ℕ := (cs.map Completion.size).sum

@[simp] theorem sizes_nil : sizes [] = 0 := rfl

@[simp] theorem sizes_cons (c : Completion) (cs : List Completion) :
    sizes (c :: cs) = c.size + sizes cs := by simp [sizes]

@[simp] theorem sizes_append (cs ds : List Completion) :
    sizes (cs ++ ds) = sizes cs + sizes ds := by
  simp [sizes]

theorem size_eq_zero_of_sizes (h : sizes cs = 0) : ∀ c ∈ cs, c.size = 0 := by
  intro c hc
  have := Cover.le_sum_of_mem (f := Completion.size) hc
  unfold sizes at h
  omega

/-- The completion that ends a batch names the batch, and no other has a size. -/
def Completion.Good (cfg : Config) (c : Completion) : Prop :=
  c.node < cfg.maxNodes ∧ c.size < RequestBuffer.kCapacity ∧
    (c.size = 0 ∧ c.wrId = 0 ∨ ∃ task, c.wrId = makeWrId task cfg.tid c.node c.size)

theorem account_ackReq (hc : c.Good cfg) (s : State) (n : ℕ) :
    (account s c).ackReq n = s.ackReq n + if c.node = n then c.size else 0 := by
  obtain ⟨hn, hs, hid⟩ := hc
  have hmax := cfg.maxNodes_le
  unfold RequestBuffer.kCapacity at hs
  simp only [account]
  rcases hid with ⟨h0, hid⟩ | ⟨task, hid⟩
  · rw [hid, h0, show wrSize 0 = 0 from rfl, add_zero, update_eq_self]
    simp
  · rw [hid, memNodeId_makeWrId (by omega) (by omega), wrSize_makeWrId (by omega)]
    rcases eq_or_ne c.node n with rfl | hne
    · rw [update_self, if_pos rfl]
    · rw [update_of_ne hne.symm, if_neg hne, add_zero]

theorem account_inflightAck (hc : c.Good cfg) (s : State) :
    (account s c).inflightAck = s.inflightAck - c.size := by
  obtain ⟨hn, hs, hid⟩ := hc
  unfold RequestBuffer.kCapacity at hs
  simp only [account]
  rcases hid with ⟨h0, hid⟩ | ⟨task, hid⟩
  · rw [hid, h0]
    rfl
  · rw [hid, wrSize_makeWrId (by omega)]

/-- What is still to be booked for `n`, oldest first: in hand, in the queue, on its way. -/
def State.pending (cfg : Config) (hand : List Completion) (s : State) (n : ℕ) :
    List Completion :=
  hand.filter (·.node = n) ++
    (((s.cq (cfg.cqOf n)).map Prod.fst).filter (·.node = n) ++ s.wire n)

/-- While a batch that a `sync` waits for is pending, no later one of its node is booked. -/
structure Waiting.Ok (clock : ℕ) (ackReq : ℕ → ℕ) (pending : ℕ → List Completion)
    (w : Waiting) : Prop where
  stamp_le : w.stamp ≤ clock
  snapshot : ∀ n, ∀ c ∈ pending n, c.stamp < w.stamp →
    w.postReq n = ackReq n + sizes ((pending n).filter (·.stamp < w.stamp))
  passed : ∀ n < w.id, ∀ c ∈ pending n, c.stamp < w.stamp → c.size = 0

/-- A direct call under way: its completion is the only one its queue will see. -/
structure SpinOk (cfg : Config) (clock : ℕ) (pending : ℕ → List Completion)
    (node stamp : ℕ) : Prop where
  stamp_lt : stamp < clock
  own : pending node = [⟨node, 0, stamp, 0⟩]
  alone : ∀ n, cfg.cqOf n = cfg.cqOf node → n ≠ node → pending n = []
  fresh : ∀ n, n ≠ node → ∀ c ∈ pending n, c.stamp ≠ stamp

def Return.bound : Return → ℕ
  | .sync stamp => stamp
  | .direct stamp => stamp + 1

structure Inv (cfg : Config) (hand : List Completion) (s : State) : Prop where
  booked : ∀ n, s.postReq n = s.ackReq n + sizes (s.pending cfg hand n)
  inflight : s.inflightAck = ∑ n ∈ Finset.range cfg.maxNodes, ((s.postReq n : ℤ) - s.ackReq n)
  polled : ∀ n, s.ackReq n + sizes (hand.filter (·.node = n)) = s.polled n
  sorted : ∀ n, (s.pending cfg hand n).Pairwise (·.stamp ≤ ·.stamp)
  good : ∀ n, ∀ c ∈ s.pending cfg hand n, c.node = n ∧ c.Good cfg ∧ c.stamp < s.clock
  cq : ∀ q, ∀ e ∈ s.cq q, cfg.cqOf e.1.node = q ∧ e.2 = true
  buf : ∀ t, ∀ wr ∈ (s.reqBuf t).wrList, wr.wrId = 0 ∧ (s.reqBuf t).memNodeId < cfg.maxNodes
  buf_lt : ∀ t, (s.reqBuf t).wrList.length < RequestBuffer.kCapacity
  waiting : ∀ t, ∀ w ∈ s.waiting t, w.Ok s.clock s.ackReq (s.pending cfg hand)
  spinning : ∀ p ∈ s.spinning, SpinOk cfg s.clock (s.pending cfg hand) p.1 p.2
  returned : ∀ r ∈ s.returns, r.bound ≤ s.clock ∧ r.Done s

theorem Inv.exact (h : Inv cfg [] s) : Exact cfg s where
  attributed n := by simpa using h.polled n
  inflight := h.inflight
  returned r hr := (h.returned r hr).2

theorem inv_initial : Inv cfg [] initial := by
  constructor <;> simp [initial, State.pending, RequestBuffer.kCapacity]

theorem mem_pending_of_wire (cfg : Config) (hand : List Completion) (hc : c ∈ s.wire n) :
    c ∈ s.pending cfg hand n :=
  mem_append_right _ (mem_append_right _ hc)

theorem Inv.addRequest (h : Inv cfg hand s) {signaled : Bool} (hn : node < cfg.maxNodes)
    (hs : addRequest s task node signaled = some s') : Inv cfg hand s' := by
  unfold Requests.addRequest at hs
  simp only at hs
  split_ifs at hs with hnode hfull
  cases hs
  have hlt := h.buf_lt task
  refine { h with buf := fun t wr hwr => ?_, buf_lt := fun t => ?_ }
  · rcases eq_or_ne t task with rfl | ht
    · simp only [update_self, mem_append, mem_singleton] at hwr ⊢
      rcases hwr with hwr | rfl
      · exact ⟨(h.buf t wr hwr).1, hn⟩
      · exact ⟨rfl, hn⟩
    · simp only [update_of_ne ht] at hwr ⊢
      exact h.buf t wr hwr
  · rcases eq_or_ne t task with rfl | ht
    · simp only [update_self, length_append, length_singleton]
      omega
    · simp only [update_of_ne ht]
      exact h.buf_lt t

def State.push (s : State) (n : ℕ) (cs : List Completion) : State :=
  { s with
    postReq := Function.update s.postReq n (s.postReq n + sizes cs)
    inflightAck := s.inflightAck + sizes cs
    wire := Function.update s.wire n (s.wire n ++ cs)
    clock := s.clock + 1 }

theorem pending_push (s : State) (n : ℕ) (cs : List Completion) (m : ℕ) :
    (s.push n cs).pending cfg hand m = s.pending cfg hand m ++ if m = n then cs else [] := by
  simp only [State.pending, State.push]
  rcases eq_or_ne m n with rfl | hm
  · rw [update_self, if_pos rfl]
    simp only [append_assoc]
  · rw [update_of_ne hm, if_neg hm, append_nil]

theorem Waiting.Ok.push {clock : ℕ} {ack : ℕ → ℕ} {P Q : ℕ → List Completion} {w : Waiting}
    (h : w.Ok clock ack P) (hQ : ∀ m, ∃ cs, Q m = P m ++ cs ∧ ∀ c ∈ cs, c.stamp = clock) :
    w.Ok (clock + 1) ack Q := by
  have hle := h.stamp_le
  have hold : ∀ m, ∀ c ∈ Q m, c.stamp < w.stamp → c ∈ P m := by
    intro m c hc hlt
    obtain ⟨cs, hcs, hstamp⟩ := hQ m
    rw [hcs] at hc
    rcases mem_append.mp hc with hc | hc
    · exact hc
    · have := hstamp c hc
      omega
  refine ⟨by omega, fun n c hc hlt => ?_,
    fun n hn c hc hlt => h.passed n hn c (hold n c hc hlt) hlt⟩
  obtain ⟨cs, hcs, hstamp⟩ := hQ n
  have hnil : cs.filter (·.stamp < w.stamp) = [] := by
    rw [filter_eq_nil_iff]
    intro d hd
    have := hstamp d hd
    simp only [decide_eq_true_eq]
    omega
  rw [hcs, filter_append, hnil, append_nil]
  exact h.snapshot n c (hold n c hc hlt) hlt

theorem Return.Done.push (hb : r.bound ≤ s.clock) (h : r.Done s)
    (hcs : ∀ c ∈ cs, c.stamp = s.clock) : r.Done (s.push n cs) := by
  have hmem : ∀ m, ∀ c ∈ (s.push n cs).wire m, c ∈ s.wire m ∨ c.stamp = s.clock := by
    intro m c hc
    simp only [State.push] at hc
    rcases eq_or_ne m n with rfl | hm
    · rw [update_self, mem_append] at hc
      exact hc.imp_right (hcs c)
    · rw [update_of_ne hm] at hc
      exact .inl hc
  cases r with
  | sync stamp =>
    intro m c hc hsize
    rcases hmem m c hc with hc | hc
    · exact h m c hc hsize
    · exact hb.trans hc.ge
  | direct stamp =>
    intro m c hc
    rcases hmem m c hc with hc | hc
    · exact h m c hc
    · have hlt : stamp < s.clock := hb
      omega

theorem Inv.push (h : Inv cfg hand s) (hspin : s.spinning = none) (hn : n < cfg.maxNodes)
    (hcs : ∀ c ∈ cs, c.node = n ∧ c.Good cfg ∧ c.stamp = s.clock) : Inv cfg hand (s.push n cs) := by
  have hQ : ∀ m, ∃ ds, (s.push n cs).pending cfg hand m = s.pending cfg hand m ++ ds ∧
      ∀ c ∈ ds, c.node = m ∧ c.Good cfg ∧ c.stamp = s.clock := by
    intro m
    refine ⟨_, pending_push s n cs m, fun c hc => ?_⟩
    split_ifs at hc with hm
    · exact hm ▸ hcs c hc
    · exact absurd hc (not_mem_nil)
  refine ⟨fun m => ?_, ?_, h.polled, fun m => ?_, fun m c hc => ?_, h.cq, h.buf, h.buf_lt,
    fun t w hw => ?_, fun p hp => ?_, fun r hr => ?_⟩
  · have hb := h.booked m
    rw [pending_push, sizes_append, ← add_assoc]
    simp only [State.push]
    rw [← hb]
    rcases eq_or_ne m n with rfl | hm
    · rw [update_self, if_pos rfl]
    · rw [update_of_ne hm, if_neg hm, sizes_nil, add_zero]
  · have hsum := Cover.sum_update (Finset.range cfg.maxNodes)
      (fun m (v : ℕ) => (v : ℤ) - s.ackReq m) s.postReq (Finset.mem_range.mpr hn)
      (s.postReq n + sizes cs)
    have hinf := h.inflight
    simp only [State.push]
    push_cast at hsum
    omega
  · obtain ⟨ds, hds, hgood⟩ := hQ m
    rw [hds, pairwise_append]
    refine ⟨h.sorted m, ?_, fun c hc d hd => ?_⟩
    · rw [pairwise_iff_forall_sublist]
      intro c d hcd
      have hc := (hgood c (hcd.subset (by simp))).2.2
      have hd := (hgood d (hcd.subset (by simp))).2.2
      omega
    · have hc := (h.good m c hc).2.2
      have hd := (hgood d hd).2.2
      omega
  · obtain ⟨ds, hds, hgood⟩ := hQ m
    rw [hds, mem_append] at hc
    rcases hc with hc | hc
    · obtain ⟨h1, h2, h3⟩ := h.good m c hc
      exact ⟨h1, h2, h3.trans (lt_succ_self _)⟩
    · obtain ⟨h1, h2, h3⟩ := hgood c hc
      exact ⟨h1, h2, h3.trans_lt (lt_succ_self _)⟩
  · refine (h.waiting t w hw).push fun m => ?_
    obtain ⟨ds, hds, hgood⟩ := hQ m
    exact ⟨ds, hds, fun c hc => (hgood c hc).2.2⟩
  · have : s.spinning = some p := hp
    rw [hspin] at this
    exact absurd this (by simp)
  · obtain ⟨h1, h2⟩ := h.returned r hr
    exact ⟨h1.trans (le_succ _), h2.push h1 fun c hc => (hcs c hc).2.2⟩

section Batch
variable {stamp wrId : ℕ} {wrs : List WorkRequest}

theorem completions_signalLast (hne : wrs ≠ []) :
    sizes (completions node stamp size (signalLast wrId wrs)) = size := by
  fun_induction signalLast wrId wrs with
  | case1 => exact absurd rfl hne
  | case2 wr => simp [completions]
  | case3 wr wr' wrs ih =>
    have ih := ih (cons_ne_nil _ _)
    obtain ⟨v, vs, hv⟩ : ∃ v vs, signalLast wrId (wr' :: wrs) = v :: vs := by
      cases wrs <;> exact ⟨_, _, rfl⟩
    rw [hv] at ih ⊢
    unfold completions
    split_ifs
    · rwa [sizes_cons, zero_add]
    · exact ih

theorem mem_completions_signalLast (h0 : ∀ wr ∈ wrs, wr.wrId = 0)
    (hc : c ∈ completions node stamp size (signalLast wrId wrs)) : c.node = node ∧ c.stamp = stamp ∧
      (c.size = 0 ∧ c.wrId = 0 ∨ c.size = size ∧ c.wrId = wrId) := by
  fun_induction signalLast wrId wrs with
  | case1 => exact absurd hc (not_mem_nil)
  | case2 wr =>
    obtain rfl : c = ⟨node, wrId, stamp, size⟩ := by simpa [completions] using hc
    exact ⟨rfl, rfl, .inr ⟨rfl, rfl⟩⟩
  | case3 wr wr' wrs ih =>
    have ih := ih (fun x hx => h0 x (mem_cons_of_mem _ hx))
    obtain ⟨v, vs, hv⟩ : ∃ v vs, signalLast wrId (wr' :: wrs) = v :: vs := by
      cases wrs <;> exact ⟨_, _, rfl⟩
    rw [hv] at ih hc
    unfold completions at hc
    split_ifs at hc
    · rcases mem_cons.mp hc with rfl | hc
      · exact ⟨rfl, rfl, .inl ⟨rfl, h0 wr mem_cons_self⟩⟩
      · exact ih hc
    · exact ih hc

end Batch

theorem postRequest_none (s : State) (task : ℕ) (hne : (s.reqBuf task).wrList ≠ []) :
    postRequest cfg s task none =
      { s.push (s.reqBuf task).memNodeId (completions (s.reqBuf task).memNodeId s.clock
          (s.reqBuf task).wrList.length ((s.reqBuf task).batch cfg task)) with
        reqBuf := update s.reqBuf task { s.reqBuf task with wrList := [] } } := by
  unfold postRequest
  rw [if_neg hne]
  simp only [State.push, RequestBuffer.batch, completions_signalLast hne]

theorem Inv.postRequest (h : Inv cfg hand s) (hspin : s.spinning = none) (task : ℕ) :
    Inv cfg hand (postRequest cfg s task none) := by
  by_cases hne : (s.reqBuf task).wrList = []
  · unfold Requests.postRequest
    rwa [if_pos hne]
  · rw [postRequest_none s task hne]
    obtain ⟨wr, hwr⟩ := exists_mem_of_ne_nil _ hne
    have hnode := (h.buf task wr hwr).2
    have hcs : ∀ c ∈ completions (s.reqBuf task).memNodeId s.clock
        (s.reqBuf task).wrList.length ((s.reqBuf task).batch cfg task),
        c.node = (s.reqBuf task).memNodeId ∧ c.Good cfg ∧ c.stamp = s.clock := by
      intro c hc
      obtain ⟨h1, h2, h3⟩ := mem_completions_signalLast (fun wr hwr => (h.buf task wr hwr).1) hc
      have hlt := h.buf_lt task
      refine ⟨h1, ⟨by rwa [h1], ?_, ?_⟩, h2⟩
      · rcases h3 with h3 | h3 <;> omega
      · rcases h3 with h3 | h3
        · exact .inl h3
        · exact .inr ⟨task, by rw [h3.1, h3.2, h1]⟩
    have hpush := h.push hspin hnode hcs
    refine { hpush with buf := fun t wr hwr => ?_, buf_lt := fun t => ?_ }
    · rcases eq_or_ne t task with rfl | ht
      · simp only [update_self, not_mem_nil] at hwr
      · simp only [update_of_ne ht] at hwr ⊢
        exact h.buf t wr hwr
    · rcases eq_or_ne t task with rfl | ht
      · simp [RequestBuffer.kCapacity]
      · simp only [update_of_ne ht]
        exact h.buf_lt t

theorem Inv.setWaiting (h : Inv cfg hand s) (task : ℕ) {o : Option Waiting}
    (ho : ∀ w ∈ o, w.Ok s.clock s.ackReq (s.pending cfg hand)) :
    Inv cfg hand { s with waiting := update s.waiting task o } := by
  refine { h with waiting := fun t w hw => ?_ }
  rcases eq_or_ne t task with rfl | ht
  · simp only [update_self] at hw
    exact ho w hw
  · simp only [update_of_ne ht] at hw
    exact h.waiting t w hw

theorem Inv.syncBegin (h : Inv cfg [] s) (hspin : s.spinning = none) (task : ℕ) :
    Inv cfg [] (syncBegin cfg s task none) := by
  have hp := h.postRequest hspin task
  unfold Requests.syncBegin
  simp only [isSome_none, Bool.false_eq_true, and_false, if_false]
  refine hp.setWaiting task ?_
  rintro w ⟨⟩
  refine ⟨le_refl _, fun n c hc hlt => ?_, fun n hn => absurd hn (not_lt_zero n)⟩
  -- everything pending was posted before, so the filter keeps it all
  rw [filter_eq_self.mpr fun d hd => decide_eq_true (hp.good n d hd).2.2]
  exact hp.booked n

theorem Inv.check (h : Inv cfg [] s) (hs : check cfg s task = some s') : Inv cfg [] s' := by
  obtain ⟨w, hw, hs⟩ := bind_eq_some_iff.mp hs
  have hok := h.waiting task w hw
  split_ifs at hs with hid hlt
  · cases hs
    have hwait := h.setWaiting task (o := none) (fun w hw => absurd hw (not_mem_none w))
    refine { hwait with returned := forall_mem_cons.mpr ⟨⟨hok.stamp_le, ?_⟩, h.returned⟩ }
    intro n c hc hsize
    have hmem := mem_pending_of_wire cfg [] hc
    obtain ⟨hnode, hgood, -⟩ := h.good n c hmem
    by_contra hlt
    exact hsize (hok.passed n (by rw [hid, ← hnode]; exact hgood.1) c hmem (Nat.lt_of_not_le hlt))
  · cases hs
    refine h.setWaiting task ?_
    rintro _ ⟨⟩
    refine ⟨hok.stamp_le, hok.snapshot, fun n hn c hc hstamp => ?_⟩
    rcases Nat.lt_succ_iff_lt_or_eq.mp hn with hn | rfl
    · exact hok.passed n hn c hc hstamp
    · have hsnap := hok.snapshot w.id c hc hstamp
      have hzero : sizes ((s.pending cfg [] w.id).filter (·.stamp < w.stamp)) = 0 := by omega
      exact size_eq_zero_of_sizes hzero c (mem_filter.mpr ⟨hc, decide_eq_true hstamp⟩)

theorem pending_arrive (cfg : Config) (hand : List Completion) {rest : List Completion}
    (hw : s.wire node = c :: rest) (hc : c.node = node) (success : Bool) (m : ℕ) :
    State.pending cfg hand { s with
      wire := update s.wire node rest
      cq := update s.cq (cfg.cqOf node) (s.cq (cfg.cqOf node) ++ [(c, success)]) } m =
      s.pending cfg hand m := by
  simp only [State.pending]
  rcases eq_or_ne m node with rfl | hm
  · simp [hw, hc]
  · rw [update_of_ne hm]
    rcases eq_or_ne (cfg.cqOf m) (cfg.cqOf node) with hq | hq
    · rw [hq, update_self]
      simp [hc, hm.symm]
    · rw [update_of_ne hq]

theorem Return.Done.mono (h : r.Done s) (hw : ∀ n, ∀ c ∈ s'.wire n, c ∈ s.wire n) : r.Done s' := by
  cases r with
  | sync stamp => exact fun n c hc => h n c (hw n c hc)
  | direct stamp => exact fun n c hc => h n c (hw n c hc)

theorem Inv.arrive (h : Inv cfg hand s) (hs : arrive cfg s node true = some s') :
    Inv cfg hand s' := by
  unfold Requests.arrive at hs
  cases hw : s.wire node with
  | nil => simp [hw] at hs
  | cons c rest =>
    simp only [hw] at hs
    cases hs
    have hmem : c ∈ s.pending cfg hand node := mem_pending_of_wire cfg hand (by simp [hw])
    have hnode := (h.good node c hmem).1
    have hp := funext (pending_arrive cfg hand hw hnode true)
    refine ⟨?_, h.inflight, h.polled, ?_, ?_, fun q e he => ?_, h.buf, h.buf_lt, ?_, ?_,
      fun r hr => ⟨(h.returned r hr).1, (h.returned r hr).2.mono fun n d hd => ?_⟩⟩
    · rw [hp]
      exact h.booked
    · rw [hp]
      exact h.sorted
    · rw [hp]
      exact h.good
    · simp only at he
      rcases eq_or_ne q (cfg.cqOf node) with rfl | hq
      · rw [update_self, mem_append, mem_singleton] at he
        rcases he with he | rfl
        · exact h.cq _ e he
        · exact ⟨by rw [hnode], rfl⟩
      · rw [update_of_ne hq] at he
        exact h.cq q e he
    · rw [hp]
      exact h.waiting
    · rw [hp]
      exact h.spinning
    · simp only at hd
      rcases eq_or_ne n node with rfl | hn
      · rw [update_self] at hd
        rw [hw]
        exact mem_cons_of_mem c hd
      · rwa [update_of_ne hn] at hd

end Fusa.Smart.Requests

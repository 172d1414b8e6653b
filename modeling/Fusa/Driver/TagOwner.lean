import Fusa.Driver.TagTurns

/-! Tag matching completions name the right request. -/
namespace Fusa.Driver.Tm
open Transition Function List Option

namespace State

section
variable {cfg : Cfg} {s t : State}

theorem Inv.out (h : Inv cfg s) : Inv cfg s.out := by
  obtain ⟨hclean, htail, hnames, hcounts, hops⟩ := h
  refine ⟨hclean, htail, hnames, hcounts.congr (fun _ => rfl) (fun _ => rfl) rfl rfl, ?_⟩
  obtain ⟨h₁, h₂, h₃, h₄, h₅⟩ := hops
  exact ⟨h₁, h₂, h₃, h₄, Nat.le_add_right_of_le h₅⟩

theorem Inv.exec (h : Inv cfg s) {w : Wqe} {queue : List Wqe} (hq : s.queue = w :: queue) :
    Inv cfg { s with queue, dev := s.dev.execOne w } := by
  have hahead : ahead { s with queue, dev := s.dev.execOne w } = s.ahead := by
    rw [ahead, ahead, hq]
    rfl
  obtain ⟨hclean, htail, hnames, hcounts, hops⟩ := h
  rw [hq] at hclean
  rw [← hahead] at htail hnames hops
  refine ⟨hclean.2, htail, hnames, ?_, hops⟩
  change Counts cfg s.srq (ahead _).count
  rwa [hahead]

variable {k i : ℕ} {e : ℕ × UInt64} {srq : Srq} {c : OpCqe} {done : List OpCqe}

theorem Inv.consume (h : Inv cfg s) (he : s.dev.listed[k]? = some e) (hc : Orderly s (.consume k)) :
    Inv cfg (s.hit k e) := by
  obtain ⟨hk, hget⟩ := List.getElem?_eq_some_iff.mp he
  have hstart : Device.Consumed e.1 e.2 s.dev (s.hit k e).dev := by
    refine ⟨rfl, rfl, .inl ⟨s.dev.listed.take k, s.dev.listed.drop (k + 1), ?_, ?_, rfl⟩⟩
    · rw [← hget, getElem_cons_drop, take_append_drop]
    · exact eraseIdx_eq_take_drop_succ _ _
  obtain ⟨hcons, hclean⟩ := hstart.flush h.clean (hc e he)
  have hdue : (s.hit k e).due = s.due := by
    funext i
    exact hcons.count
  refine ⟨hclean, hcons.tail.trans h.tail, hcons.names h.names, ?_, ?_⟩
  · rw [hdue]
    exact h.counts
  · have hslots := hcons.map_done (g := OpCqe.slot) fun c => rfl
    have hops := h.ops
    rwa [ahead, ← hslots] at hops

theorem handleConsumed_eq (hne : (srq.tmList i).expectCqe ≠ 0) (op : ConsumedOp)
    (scatter : Option UInt32) :
    (srq.handleConsumed i op scatter).1 = (if op.isComplete then srq.releaseTag i else srq) ∧
      (srq.handleConsumed i op scatter).2.wrId = some (srq.tmList i).wrId := by
  simp only [Srq.handleConsumed, if_neg hne]
  cases scatter with
  | none => exact ⟨rfl, rfl⟩
  | some byteCnt =>
    simp only
    split <;> exact ⟨rfl, rfl⟩

theorem Inv.expect_ne_zero (h : Inv cfg s) (hi : 0 < s.due i) : (s.srq.tmList i).expectCqe ≠ 0 := by
  intro h0
  have he := h.counts.expect i
  rw [h0] at he
  have hz : s.due i = 0 := he.symm
  omega

theorem due_pos_of_hit (he : e ∈ s.dev.hits) : 0 < s.due e.1 := by
  have hmem : e.1 ∈ s.ahead.hits.map Prod.fst := by
    rw [ahead, Device.hits_flush]
    exact mem_map_of_mem he
  have hpos := count_pos_iff.mpr hmem
  unfold ahead at hpos
  unfold due Device.count
  omega

theorem Inv.consumedCqe (h : Inv cfg s) (he : s.dev.hits[k]? = some e) :
    Inv cfg { s with srq := s.srq.releaseTag e.1, dev.hits := s.dev.hits.eraseIdx k } := by
  have hpos := due_pos_of_hit (mem_of_getElem? he)
  obtain ⟨hk, hget⟩ := List.getElem?_eq_some_iff.mp he
  let t := { s with srq := s.srq.releaseTag e.1, dev.hits := s.dev.hits.eraseIdx k }
  have hahead : t.ahead = { s.ahead with hits := s.dev.hits.eraseIdx k } := Device.flush_hits _
  have hperm : (e :: s.dev.hits.eraseIdx k).Perm s.ahead.hits := by
    rw [ahead, Device.hits_flush, ← hget]
    exact getElem_cons_eraseIdx_perm hk
  have hdue : t.due = update s.due e.1 (s.due e.1 - 1) := by
    change (ahead _).count = _
    rw [hahead]
    refine eq_update_iff.mpr ⟨?_, fun i hi => ?_⟩
    · have hold : s.due e.1 = _ := Device.count_eraseHit hperm
      rw [hold, if_pos rfl]
      rfl
    · have hold : s.due i = _ := Device.count_eraseHit hperm
      rw [hold, if_neg (Ne.symm hi)]
      rfl
  refine ⟨?_, ?_, ?_, ?_, ?_⟩
  · exact h.clean.hits _
  · rw [hahead, Srq.tmHead_releaseTag]
    exact h.tail
  · rw [hahead]
    simp only [Srq.wrId_releaseTag]
    refine ⟨h.names.listed, fun e' he' => ?_, h.names.gone⟩
    exact h.names.hits e' (hperm.subset (mem_cons_of_mem e he'))
  · rw [hdue]
    exact h.counts.release hpos
  · rw [hahead]
    exact h.ops.congr Srq.ring_releaseTag

theorem ahead_cons (hd : s.dev.done = c :: done) :
    s.ahead = { Device.flush { s.dev with done := done } s.queue with
      done := c :: (Device.flush { s.dev with done := done } s.queue).done } := by
  have hdev : s.dev = { s.dev with done := c :: done } := by rw [← hd]
  have hflush : Device.flush { s.dev with done := c :: done } s.queue = _ :=
    Device.flush_cons (d := { s.dev with done := done }) c
  rwa [← hdev] at hflush

theorem Inv.handleListOp (h : Inv cfg s) (hd : s.dev.done = c :: done) (hwPhaseCnt : ℕ) :
    (s.srq.handleListOp cfg c.op c.gone.isSome hwPhaseCnt).2.wrId = some c.wrId ∧
      (s.srq.handleListOp cfg c.op c.gone.isSome hwPhaseCnt).1 =
        { c.polled { s.srq with opHead := s.srq.opHead + 1 } with tail := c.wqeHead + 1 } := by
  have hmem : c ∈ s.ahead.done := by
    rw [ahead_cons hd]
    exact mem_cons_self
  have hops := h.ops
  rw [ahead_cons hd, map_cons] at hops
  refine handleListOp_eq hops.slots.1 (fun hg => ?_) hwPhaseCnt
  obtain ⟨r', hr'⟩ := isSome_iff_exists.mp hg
  exact (h.names.gone c hmem r' hr').1

theorem Inv.listCqe (h : Inv cfg s) (h0 : s.nreq = 0) (hd : s.dev.done = c :: done) (hwPhaseCnt : ℕ)
    :
    Inv cfg { s with
      srq := (s.srq.handleListOp cfg c.op c.gone.isSome hwPhaseCnt).1, dev.done := done } := by
  have hahead := ahead_cons hd
  generalize hD : Device.flush { s.dev with done := done } s.queue = d at hahead
  have hops := h.ops
  rw [hahead, h0, map_cons] at hops
  obtain ⟨-, hpoll⟩ := hops.poll
  obtain ⟨-, hsrq⟩ := h.handleListOp hd hwPhaseCnt
  let srq := { s.srq with opHead := s.srq.opHead + 1 }
  have hcounts : Counts cfg (c.polled srq) d.count := by
    have hsame : Counts cfg srq s.due := h.counts.congr (fun _ => rfl) (fun _ => rfl) rfl rfl
    refine hsame.polled fun i => ?_
    have hi : s.due i = s.ahead.count i := rfl
    rw [hi, hahead]
    exact Device.count_cons c
  refine ⟨?_, ?_, ?_, ?_, ?_⟩
  · have hclean := h.clean
    have hdev : s.dev = { s.dev with done := c :: done } := by rw [← hd]
    rw [hdev] at hclean
    exact hclean.of_cons
  · rw [hsrq]
    change (Device.flush { s.dev with done := done } s.queue).tail = (c.polled _).tmHead
    rw [OpCqe.polled_field Srq.tmHead fun _ _ => Srq.tmHead_releaseTag, hD]
    have htail := h.tail
    rwa [hahead] at htail
  · rw [hsrq]
    change (Device.flush { s.dev with done := done } s.queue).Names
      fun i => ((c.polled srq).tmList i).wrId
    have hwr (i : ℕ) : ((c.polled srq).tmList i).wrId = _ :=
      OpCqe.polled_field (fun srq => (srq.tmList i).wrId) fun _ _ => Srq.wrId_releaseTag i
    simp only [hwr, hD]
    have hnames := h.names
    rw [hahead] at hnames
    exact ⟨hnames.listed, hnames.hits, fun c' hc' => hnames.gone c' (mem_cons_of_mem c hc')⟩
  · rw [hsrq]
    have hdue : due { s with
        srq := { c.polled srq with tail := c.wqeHead + 1 }, dev.done := done } = d.count := by
      funext i
      exact congrArg (Device.count · i) hD
    rw [hdue]
    exact hcounts.congr (fun _ => rfl) (fun _ => rfl) rfl rfl
  · rw [hsrq]
    change Ops cfg _ s.nreq ((Device.flush { s.dev with done := done } s.queue).done.map OpCqe.slot)
    rw [h0, hD]
    refine hpoll.congr ?_
    have hring : (c.polled srq).ring = _ :=
      OpCqe.polled_field Srq.ring fun _ _ => Srq.ring_releaseTag
    simp only [Srq.ring, Prod.mk.injEq] at hring ⊢
    exact ⟨hring.1, hring.2.1, hring.2.2.1, hring.2.2.2.1, rfl⟩

theorem Inv.next (h : Inv cfg s) {a : Label} (hc : Orderly s a) (hn : next cfg s a = some t) :
    Inv cfg t := by
  cases a with
  | turn wr =>
    simp only [State.next] at hn
    cases hr : s.srq.turn cfg s.nreq wr with
    | error e =>
      rw [hr] at hn
      cases hn
      exact h
    | ok r =>
      rw [hr] at hn
      cases hn
      exact h.turn hc hr
  | out =>
    cases hn
    exact h.out
  | exec =>
    simp only [State.next] at hn
    cases hq : s.queue with
    | nil =>
      rw [hq] at hn
      cases hn
    | cons w queue =>
      rw [hq] at hn
      cases hn
      exact h.exec hq
  | consume k =>
    obtain ⟨e, he, ht⟩ := bind_eq_some_iff.mp hn
    cases ht
    exact h.consume he hc
  | consumedCqe k op scatter =>
    simp only [State.next] at hn
    split_ifs at hn with h0 hcomplete
    · obtain ⟨e, he, ht⟩ := bind_eq_some_iff.mp hn
      cases ht
      have hne := h.expect_ne_zero (due_pos_of_hit (mem_of_getElem? he))
      rw [(handleConsumed_eq hne op scatter).1, if_pos hcomplete]
      exact h.consumedCqe he
    · obtain ⟨e, he, ht⟩ := bind_eq_some_iff.mp hn
      cases ht
      have hne := h.expect_ne_zero (due_pos_of_hit (mem_of_getElem? he))
      rwa [(handleConsumed_eq hne op scatter).1, if_neg hcomplete]
  | listCqe hwPhaseCnt =>
    obtain ⟨h0, hn⟩ := ite_none_right_eq_some.mp hn
    cases hd : s.dev.done with
    | nil =>
      rw [hd] at hn
      cases hn
    | cons c done =>
      rw [hd] at hn
      cases hn
      exact h.listCqe h0 hd hwPhaseCnt

theorem length_held {h : ℕ} (hf : srq.freeList cfg = [h]) (hh : h ≤ cfg.maxNumTags) :
    (srq.held cfg).length = cfg.maxNumTags := by
  have herase : srq.held cfg = (List.range (cfg.maxNumTags + 1)).erase h := by
    rw [nodup_range.erase_eq_filter, Srq.held, hf]
    refine filter_congr fun i _ => ?_
    by_cases hi : i = h <;> simp [hi]
  rw [herase, length_erase_of_mem (mem_range.mpr (by omega)), length_range]
  rfl

theorem Inv.right (h : Inv cfg s) : Right cfg s := by
  obtain ⟨l, hq, hl, hmem⟩ := h.counts.freeList_eq
  refine ⟨fun i hi => ?_, fun _ _ _ _ _ _ => h.counts.mem_tmHead.2, ?_, ?_, ?_⟩
  · rw [hl, hmem]
    exact and_iff_right hi
  · intro wr rid sg e hop hov hturn
    simp only [Srq.turn, hov, hop, Bool.false_eq_true, if_false] at hturn
    cases hnext : (s.srq.tmList s.srq.tmHead).next with
    | none =>
      have hone := hq.linked.eq_singleton hnext
      exact length_held (hl.trans hone) h.counts.mem_tmHead.1
    | some b =>
      rw [hnext] at hturn
      cases hturn
  · intro e he op scatter
    have hne := h.expect_ne_zero (due_pos_of_hit he)
    have hname : e.2 = (s.srq.tmList e.1).wrId :=
      h.names.hits e (by rw [ahead, Device.hits_flush]; exact he)
    rw [hname]
    exact (handleConsumed_eq hne op scatter).2
  · intro c done hd hwPhaseCnt
    exact (h.handleListOp hd hwPhaseCnt).1

/-- In every orderly run the driver names the right request. -/
theorem right_of_orderly (cfg : Cfg) (s : State) (h : (system cfg).RunWith Orderly s) :
    Right cfg s := by
  have hinv : Inv cfg s := by
    refine h.invariant (fun s hs => ?_) fun s a t hp hc hn => hp.next hc hn
    rw [hs]
    exact inv_create cfg
  exact hinv.right

theorem reaches_postSrqOps (cfg : Cfg) (wrs : List OpsWr) (s : State) :
    (system cfg).Reaches s (postSrqOps cfg wrs s).1 := by
  induction wrs generalizing s with
  | nil => exact .step .out rfl
  | cons wr wrs ih =>
    simp only [postSrqOps]
    cases hr : s.srq.turn cfg s.nreq wr with
    | error e => exact .step .out rfl
    | ok r =>
      have hturn : (system cfg).next s (.turn wr) = some (s.built r) := by
        simp only [system, State.next, hr]
      exact (System.Reaches.step (.turn wr) hturn).trans (ih (s.built r))

end

instance Orderly.decidable (s : State) (a : Label) : Decidable (Orderly s a) := by
  unfold Orderly
  split <;> [split; skip; skip] <;> infer_instance

def oneTag : Cfg := ⟨1, 4, 4, by decide⟩

def lateRemoval : List Label :=
  [.turn ⟨7, true, none, .add 70 none⟩, .out, .exec, .consume 0,
    .turn ⟨8, true, none, .del 0⟩, .out, .exec, .listCqe 0]

theorem right_lateRemoval : ∃ s,
    (system oneTag).exec ⟨.create oneTag, 0, [], .create⟩ lateRemoval = some s ∧
      s.due 0 = 2 ∧ Right oneTag s := by
  obtain ⟨s, hs, horderly, hdue⟩ := (system oneTag).exists_runWith Orderly (·.due 0 = 2) rfl
    lateRemoval (by decide +kernel) (by decide +kernel)
  exact ⟨s, hs, hdue, right_of_orderly oneTag s horderly⟩

def silentRemoval : List Label :=
  [.turn ⟨7, false, none, .add 70 none⟩, .out, .exec, .turn ⟨8, false, none, .del 0⟩, .out,
    .consume 0]

/-- The entry is free at once, and then the tag is consumed. -/
theorem not_right_silentRemoval : ∃ s, (system oneTag).Reachable s ∧
    0 ∈ s.srq.freeList oneTag ∧ s.dev.hits = [(0, 70)] ∧ ¬ Right oneTag s := by
  obtain ⟨s, -, h, hfree, hhits, hdue⟩ := (system oneTag).exists_reachable
    (fun s => 0 ∈ s.srq.freeList oneTag ∧ s.dev.hits = [(0, 70)] ∧ s.due 0 ≠ 0) rfl silentRemoval
    (by decide +kernel)
  exact ⟨s, h, hfree, hhits, fun hright => hdue ((hright.free 0 (Nat.zero_le _)).mp hfree)⟩

end State

end Fusa.Driver.Tm

import Fusa.Driver.TagCounts
import Fusa.Driver.TagDevice

/-! The count of tag matching completions, and the turns of `mlx5_post_srq_ops` that keep it. -/
namespace Fusa.Driver.Tm
open LinkedQueue Transition Function Device List Nat

def OpCqe.slot (c : OpCqe) : SrqOp := ⟨c.tag, c.wrId, c.wqeHead⟩

variable {nreq : ℕ} {srq : Srq}

theorem Ops.signal {cfg : Cfg} {done : List OpCqe} (h : Ops cfg srq nreq (done.map OpCqe.slot))
    (hov : srq.wqOverflow cfg nreq = false) (wr : OpsWr) (op : ListOp) (tag : Option ℕ)
    (gone : Option UInt64) : Ops cfg (srq.signal cfg tag wr nreq) (nreq + 1) ((done ++
      if wr.signaled then [(⟨op, tag, gone, wr.wrId, srq.head + nreq⟩ : OpCqe)] else []).map
        OpCqe.slot) := by
  unfold Srq.signal
  split
  · rw [map_append]
    exact h.add hov tag wr.wrId
  · rw [append_nil]
    exact h.skip

section
variable {cfg : Cfg} {c : OpCqe}

/-- What the completion of a list operation does to the SRQ. -/
def OpCqe.polled (c : OpCqe) (srq : Srq) : Srq :=
  match c.tag with
  | some i => if c.gone.isSome then (srq.releaseTag i).releaseTag i else srq.releaseTag i
  | none => srq

theorem Counts.polled {n m : ℕ → ℕ} (h : Counts cfg srq n)
    (hm : ∀ i, n i = m i + c.count i) : Counts cfg (c.polled srq) m := by
  unfold OpCqe.polled
  cases hc : c.tag with
  | none =>
    have hnm : n = m := by
      funext i
      rw [hm i, OpCqe.count, hc, if_neg (by simp), add_zero]
    rwa [← hnm]
  | some i =>
    have hother : ∀ j, j ≠ i → n j = m j := by
      intro j hj
      rw [hm j, OpCqe.count, hc, if_neg (by simpa using Ne.symm hj), add_zero]
    have hi : n i = m i + if c.gone.isSome then 2 else 1 := by
      rw [hm i, OpCqe.count, hc, if_pos rfl]
    have hnm : update n i (m i) = m := update_eq_iff.mpr ⟨rfl, hother⟩
    rw [← hnm]
    simp only
    split
    · rename_i hg
      rw [if_pos hg] at hi
      have hfirst := h.release (i := i) (by omega)
      have hsecond := hfirst.release (i := i) (by rw [update_self]; omega)
      rwa [update_self, update_idem, hi] at hsecond
    · rename_i hg
      rw [if_neg hg] at hi
      have hfirst := h.release (i := i) (by omega)
      rwa [hi] at hfirst

theorem OpCqe.polled_field {β : Type*} (g : Srq → β) (hg : ∀ s i, g (s.releaseTag i) = g s) :
    g (c.polled srq) = g srq := by
  unfold polled
  split
  · split
    · rw [hg, hg]
    · exact hg srq _
  · rfl

theorem handleListOp_eq (hs : srq.op (srq.opHead % cfg.wqeCnt) = c.slot)
    (hg : c.gone.isSome → c.op = .remove) (hwPhaseCnt : ℕ) :
    (srq.handleListOp cfg c.op c.gone.isSome hwPhaseCnt).2.wrId = some c.wrId ∧
      (srq.handleListOp cfg c.op c.gone.isSome hwPhaseCnt).1 =
        { c.polled { srq with opHead := srq.opHead + 1 } with tail := c.wqeHead + 1 } := by
  have htwice : (c.op = .remove ∧ (if c.op = .remove ∧ ¬ c.gone.isSome then WcStatus.tmErr
      else .success) = .success) ↔ c.gone.isSome := by
    constructor
    · rintro ⟨hop, hstatus⟩
      by_contra hnone
      rw [if_pos ⟨hop, hnone⟩] at hstatus
      cases hstatus
    · intro hsome
      exact ⟨hg hsome, if_neg fun h => h.2 hsome⟩
  simp only [Srq.handleListOp, hs, htwice, OpCqe.polled]
  cases htag : c.tag with
  | none | some i => simp only [OpCqe.slot, htag, and_self]

end

namespace State

def ahead (s : State) : Device := s.dev.flush s.queue

structure Inv (cfg : Cfg) (s : State) : Prop where
  clean : s.dev.Clean s.queue
  tail : s.ahead.tail = s.srq.tmHead
  names : s.ahead.Names fun i => (s.srq.tmList i).wrId
  counts : Counts cfg s.srq s.due
  ops : Ops cfg s.srq s.nreq (s.ahead.done.map OpCqe.slot)

section
variable {cfg : Cfg} {s t : State} {wr : OpsWr} {r : Srq × Wqe}

theorem linked_create (cfg : Cfg) {a n : ℕ} (h : a + n = cfg.maxNumTags) :
    Linked (fun i => ((Srq.create cfg).tmList i).next) cfg.maxNumTags a
      (List.range' a (n + 1)) := by
  induction n generalizing a with
  | zero =>
    obtain rfl : a = cfg.maxNumTags := h
    exact .last (if_neg (lt_irrefl _))
  | succ n ih =>
    have hnext : ((Srq.create cfg).tmList a).next = some (a + 1) := if_pos (by omega)
    rw [List.range'_succ]
    exact .cons hnext (ih (by omega))

theorem inv_create (cfg : Cfg) : Inv cfg ⟨.create cfg, 0, [], .create⟩ := by
  have hdue : ∀ i, due ⟨.create cfg, 0, [], .create⟩ i = 0 := fun i => rfl
  refine ⟨nodup_nil, rfl, ⟨?_, ?_, ?_⟩, ⟨fun i => rfl, ⟨List.range' 0 (cfg.maxNumTags + 1),
    ⟨linked_create cfg (zero_add _), nodup_range'⟩, fun i => ?_⟩, fun i _ => hdue i⟩, ?_⟩
  iterate 3 · exact fun e he => absurd he not_mem_nil
  · rw [mem_range'_1, hdue]
    omega
  · exact ⟨trivial, rfl, List.Pairwise.nil, fun o ho => absurd ho not_mem_nil, le_refl _⟩

theorem Inv.built (h : Inv cfg s) (hnodup : ((s.ahead.execOne r.2).listed.map Prod.fst).Nodup)
    (htail : (s.ahead.execOne r.2).tail = r.1.tmHead)
    (hnames : (s.ahead.execOne r.2).Names fun i => (r.1.tmList i).wrId)
    (hcounts : Counts cfg r.1 (s.ahead.execOne r.2).count)
    (hops : Ops cfg r.1 (s.nreq + 1) ((s.ahead.execOne r.2).done.map OpCqe.slot)) :
    Inv cfg (s.built r) := by
  have hahead : (s.built r).ahead = s.ahead.execOne r.2 := flush_concat
  rw [← hahead] at htail hnames hcounts hops
  exact ⟨h.clean.concat hnodup, htail, hnames, hcounts, hops⟩

theorem turn_ok (h : srq.turn cfg nreq wr = .ok r) : srq.wqOverflow cfg nreq = false ∧
      ((∃ rid sg b, wr.op = .add rid sg ∧ (srq.tmList srq.tmHead).next = some b ∧
        r = (((srq.takeTag b wr rid).signal cfg (some srq.tmHead) wr nreq).setBuffer srq.tmHead sg,
          ⟨.append b rid, wr.signaled, wr.wrId, srq.head + nreq⟩)) ∨ (∃ i, wr.op = .del i ∧
        r = (if wr.signaled then srq.addOp cfg (some i) wr.wrId nreq else srq.releaseTag i,
          ⟨.remove i, wr.signaled, wr.wrId, srq.head + nreq⟩)) ∨ (wr.op = .sync ∧
        r = (srq.signal cfg none wr nreq, ⟨.nop, wr.signaled, wr.wrId, srq.head + nreq⟩))) := by
  unfold Srq.turn at h
  split at h
  · cases h
  · rename_i hov
    refine ⟨by simpa using hov, ?_⟩
    cases hop : wr.op with
    | add rid sg =>
      simp only [hop] at h
      split at h
      · cases h
      · rename_i b hb
        exact .inl ⟨rid, sg, b, rfl, hb, (Except.ok.inj h).symm⟩
    | del i =>
      simp only [hop] at h
      exact .inr (.inl ⟨i, rfl, (Except.ok.inj h).symm⟩)
    | sync =>
      simp only [hop] at h
      exact .inr (.inr ⟨rfl, (Except.ok.inj h).symm⟩)
    | unknown =>
      simp only [hop] at h
      cases h

theorem Inv.turn_add (h : Inv cfg s) (hov : s.srq.wqOverflow cfg s.nreq = false) {rid : UInt64}
    {b : ℕ} (hb : (s.srq.tmList s.srq.tmHead).next = some b) (sg : Option (UInt64 × UInt32)) :
    Inv cfg (s.built
      (((s.srq.takeTag b wr rid).signal cfg (some s.srq.tmHead) wr s.nreq).setBuffer
          s.srq.tmHead sg,
        ⟨.append b rid, wr.signaled, wr.wrId, s.srq.head + s.nreq⟩)) := by
  have hzero : s.ahead.count s.srq.tmHead = 0 := h.counts.mem_tmHead.2
  have hzero' : s.ahead.count s.ahead.tail = 0 := by rw [h.tail, hzero]
  have hwr : (fun j => ((((s.srq.takeTag b wr rid).signal cfg (some s.srq.tmHead) wr
      s.nreq).setBuffer s.srq.tmHead sg).tmList j).wrId) =
      update (fun j => (s.srq.tmList j).wrId) s.srq.tmHead rid := by
    rw [← Srq.wrId_takeTag b wr rid]
    funext j
    rw [Srq.wrId_setBuffer, Srq.signal]
    split
    · exact Srq.wrId_addOp _ _ _
    · rfl
  refine h.built ?_ ?_ ?_ ?_ ?_
  · exact nodup_execOne h.clean.flush fun _ _ _ => hzero'
  · simp only [execOne, tail_report, Srq.tmHead_setBuffer, Srq.signal]
    split
    · rw [Srq.tmHead_addOp]
      rfl
    · rfl
  · simp only [hwr]
    refine (h.names.update hzero).execOne fun index r' hop => ?_
    obtain ⟨-, rfl⟩ := WqeOp.append.inj hop
    rw [h.tail, update_self]
  · refine Counts.setBuffer ?_ sg
    have htake := h.counts.take hb wr rid
    have hcount : (s.ahead.execOne ⟨.append b rid, wr.signaled, wr.wrId,
        s.srq.head + s.nreq⟩).count =
        update s.due s.srq.tmHead (if wr.signaled then 2 else 1) := by
      refine eq_update_iff.mpr ⟨?_, fun j hj => ?_⟩
      · rw [count_append rfl, h.tail, if_pos rfl, hzero, zero_add]
      · rw [count_append rfl, h.tail, if_neg (Ne.symm hj)]
        rfl
    rw [hcount, Srq.signal]
    split
    · have hmore := htake.addOp s.nreq wr.wrId (i := s.srq.tmHead) (by simp) (by simp)
      rwa [update_self, update_idem] at hmore
    · exact htake
  · refine Ops.congr ?_ (Srq.ring_setBuffer sg)
    have hops : Ops cfg (s.srq.takeTag b wr rid) s.nreq (s.ahead.done.map OpCqe.slot) :=
      h.ops.congr rfl
    simp only [execOne, done_report, h.tail]
    exact hops.signal hov wr _ _ _

variable {i : ℕ}

theorem Inv.turn_del (h : Inv cfg s) (hov : s.srq.wqOverflow cfg s.nreq = false) (hi : 0 < s.due i)
    (hlt : s.due i < 255) (hsig : wr.signaled = true) :
    Inv cfg (s.built (s.srq.addOp cfg (some i) wr.wrId s.nreq,
      ⟨.remove i, wr.signaled, wr.wrId, s.srq.head + s.nreq⟩)) := by
  refine h.built ?_ ?_ ?_ ?_ ?_
  · exact nodup_execOne h.clean.flush fun _ _ hop => (by cases hop)
  · simp only [execOne, tail_report, Srq.tmHead_addOp]
    exact h.tail
  · simp only [Srq.wrId_addOp]
    exact h.names.execOne fun _ _ hop => (by cases hop)
  · have hcount : (s.ahead.execOne ⟨.remove i, wr.signaled, wr.wrId, s.srq.head + s.nreq⟩).count =
        update s.due i (s.due i + 1) := by
      refine eq_update_iff.mpr ⟨?_, fun j hj => ?_⟩
      · rw [count_remove rfl hsig, if_pos rfl]
        rfl
      · rw [count_remove rfl hsig, if_neg (Ne.symm hj)]
        rfl
    rw [hcount]
    exact h.counts.addOp s.nreq wr.wrId hi hlt
  · have hops := h.ops.signal hov wr .remove (some i)
      ((s.ahead.listed.find? (Device.named i)).map Prod.snd)
    rw [Srq.signal, if_pos hsig] at hops
    simp only [execOne, done_report]
    exact hops

theorem Inv.turn_del_silent (h : Inv cfg s) (hi : i ∈ s.ahead.listed.map Prod.fst)
    (hsig : wr.signaled = false) : Inv cfg (s.built (s.srq.releaseTag i,
      ⟨.remove i, wr.signaled, wr.wrId, s.srq.head + s.nreq⟩)) := by
  have hpos : 0 < s.due i := by
    have := count_pos_iff.mpr hi
    unfold due Device.count
    unfold ahead at this
    omega
  refine h.built ?_ ?_ ?_ ?_ ?_
  · exact nodup_execOne h.clean.flush fun _ _ hop => (by cases hop)
  · simp only [execOne, tail_report, Srq.tmHead_releaseTag]
    exact h.tail
  · simp only [Srq.wrId_releaseTag]
    exact h.names.execOne fun _ _ hop => (by cases hop)
  · have hcount : (s.ahead.execOne ⟨.remove i, wr.signaled, wr.wrId, s.srq.head + s.nreq⟩).count =
        update s.due i (s.due i - 1) := by
      refine eq_update_iff.mpr ⟨?_, fun j hj => ?_⟩
      · rw [count_remove_silent rfl hsig hi, if_pos rfl]
        rfl
      · rw [count_remove_silent rfl hsig hi, if_neg (Ne.symm hj)]
        rfl
    rw [hcount]
    exact h.counts.release hpos
  · refine Ops.congr ?_ Srq.ring_releaseTag
    simp only [execOne, done_report, hsig, Bool.false_eq_true, if_false, append_nil]
    exact h.ops.skip

theorem Inv.turn_sync (h : Inv cfg s) (hov : s.srq.wqOverflow cfg s.nreq = false) :
    Inv cfg (s.built (s.srq.signal cfg none wr s.nreq,
      ⟨.nop, wr.signaled, wr.wrId, s.srq.head + s.nreq⟩)) := by
  have hsame : (s.srq.signal cfg none wr s.nreq).tmList = s.srq.tmList ∧
      (s.srq.signal cfg none wr s.nreq).tmHead = s.srq.tmHead ∧
      (s.srq.signal cfg none wr s.nreq).tmTail = s.srq.tmTail := by
    unfold Srq.signal
    split <;> exact ⟨rfl, rfl, rfl⟩
  obtain ⟨hlist, hhead, htl⟩ := hsame
  refine h.built ?_ ?_ ?_ ?_ ?_
  · exact nodup_execOne h.clean.flush fun _ _ hop => (by cases hop)
  · simp only [execOne, tail_report, hhead]
    exact h.tail
  · simp only [hlist]
    exact h.names.execOne fun _ _ hop => (by cases hop)
  · have hcount : (s.ahead.execOne ⟨.nop, wr.signaled, wr.wrId, s.srq.head + s.nreq⟩).count =
        s.due := by
      funext j
      exact count_nop rfl
    rw [hcount]
    exact h.counts.congr (fun i => by rw [hlist]) (fun i => by rw [hlist]) hhead htl
  · simp only [execOne, done_report]
    exact h.ops.signal hov wr _ _ _

theorem Inv.turn (h : Inv cfg s) (hc : Orderly s (.turn wr))
    (hr : s.srq.turn cfg s.nreq wr = .ok r) : Inv cfg (s.built r) := by
  obtain ⟨hov, ⟨rid, sg, b, -, hb, rfl⟩ | ⟨i, hop, rfl⟩ | ⟨-, rfl⟩⟩ := turn_ok hr
  · exact h.turn_add hov hb sg
  · simp only [Orderly, hop] at hc
    cases hsig : wr.signaled with
    | true =>
      rw [hsig, if_pos rfl] at hc
      have hinv := h.turn_del hov hc.1 hc.2 hsig
      rwa [hsig] at hinv
    | false =>
      rw [hsig, if_neg (by simp)] at hc
      have hinv := h.turn_del_silent hc hsig
      rwa [hsig] at hinv
  · exact h.turn_sync hov

end

end State

end Fusa.Driver.Tm

import Fusa.Driver.TagMatching
import Fusa.Lib.Lists

/-! The driver's side of tag matching: the counters with the free queue, and the ring of pending
operations. -/
namespace Fusa.Driver.Tm
open LinkedQueue Function List

/-- The counters are `n`, and the free queue has the entries with none. -/
structure Counts (cfg : Cfg) (s : Srq) (n : ℕ → ℕ) : Prop where
  expect : ∀ i, (s.tmList i).expectCqe.toNat = n i
  free : ∃ l, Queue (fun i => (s.tmList i).next) s.tmHead s.tmTail l ∧
    ∀ i, i ∈ l ↔ i ≤ cfg.maxNumTags ∧ n i = 0
  range : ∀ i, cfg.maxNumTags < i → n i = 0

def Srq.ring (s : Srq) : (ℕ → SrqOp) × ℕ × ℕ × ℕ × ℕ := (s.op, s.opHead, s.opTail, s.head, s.tail)

structure Ops (cfg : Cfg) (s : Srq) (nreq : ℕ) (ops : List SrqOp) : Prop where
  slots : Numbered.From (fun k o => s.op (k % cfg.wqeCnt) = o) s.opHead ops
  opTail : s.opTail = s.opHead + ops.length
  sorted : ops.Pairwise (·.wqeHead < ·.wqeHead)
  window : ∀ o ∈ ops, s.tail ≤ o.wqeHead ∧ o.wqeHead < s.head + nreq
  tail_le : s.tail ≤ s.head

section
variable {cfg : Cfg} {s t : Srq} {n : ℕ → ℕ} {i j nreq : ℕ} {ops : List SrqOp}

@[simp] theorem Srq.edit_self (f : TagEntry → TagEntry) :
    (s.edit i f).tmList i = f (s.tmList i) := update_self ..

theorem Srq.edit_of_ne (h : j ≠ i) (f : TagEntry → TagEntry) :
    (s.edit i f).tmList j = s.tmList j := update_of_ne h ..

theorem Srq.edit_field {β : Type*} (g : TagEntry → β) (f : TagEntry → TagEntry) :
    (fun j => g ((s.edit i f).tmList j)) =
      update (fun j => g (s.tmList j)) i (g (f (s.tmList i))) := by
  funext j
  by_cases hj : j = i
  · subst hj
    rw [edit_self, update_self]
  · rw [edit_of_ne hj, update_of_ne hj]

theorem Srq.edit_field_same {β : Type*} {g : TagEntry → β} {f : TagEntry → TagEntry}
    (hf : ∀ e, g (f e) = g e) (j : ℕ) : g ((s.edit i f).tmList j) = g (s.tmList j) := by
  by_cases hj : j = i
  · subst hj
    rw [edit_self, hf]
  · rw [edit_of_ne hj]

section
variable (h : Counts cfg s n)
include h

theorem Counts.mem_tmHead : s.tmHead ≤ cfg.maxNumTags ∧ n s.tmHead = 0 := by
  obtain ⟨l, hq, hmem⟩ := h.free
  exact (hmem _).mp hq.linked.head_mem

theorem Counts.le_of_pos (hi : 0 < n i) : i ≤ cfg.maxNumTags := by
  by_contra hgt
  have := h.range i (by omega)
  omega

theorem Counts.congr (he : ∀ i, (t.tmList i).expectCqe = (s.tmList i).expectCqe)
    (hn : ∀ i, (t.tmList i).next = (s.tmList i).next) (hh : t.tmHead = s.tmHead)
    (ht : t.tmTail = s.tmTail) : Counts cfg t n := by
  obtain ⟨l, hq, hmem⟩ := h.free
  refine ⟨fun i => by rw [he]; exact h.expect i, ⟨l, ?_, hmem⟩, h.range⟩
  rw [hh, ht]
  exact hq.congr fun i _ => hn i

theorem Counts.freeList_eq :
    ∃ l, Queue (fun i => (s.tmList i).next) s.tmHead s.tmTail l ∧ s.freeList cfg = l ∧
      ∀ i, i ∈ l ↔ i ≤ cfg.maxNumTags ∧ n i = 0 := by
  obtain ⟨l, hq, hmem⟩ := h.free
  refine ⟨l, hq, hq.linked.cells_eq ?_, hmem⟩
  have hsub : l ⊆ List.range (cfg.maxNumTags + 1) := by
    intro i hi
    rw [mem_range]
    have := (hmem i).mp hi
    omega
  have hle := (hq.nodup.subperm hsub).length_le
  rwa [length_range] at hle

theorem Counts.more (hi : 0 < n i) (hlt : n i < 255) :
    Counts cfg (s.edit i fun e => { e with expectCqe := e.expectCqe + 1 })
      (update n i (n i + 1)) := by
  obtain ⟨l, hq, hmem⟩ := h.free
  have hle := h.le_of_pos hi
  refine ⟨fun j => ?_, ⟨l, ?_, fun j => ?_⟩, fun j hj => ?_⟩
  · by_cases hj : j = i
    · subst hj
      rw [Srq.edit_self, update_self]
      have he := h.expect j
      simp
      omega
    · rw [Srq.edit_of_ne hj, update_of_ne hj]
      exact h.expect j
  · exact hq.congr fun x _ => Srq.edit_field_same (g := TagEntry.next) (by intro e; rfl) x
  · rw [hmem]
    by_cases hj : j = i
    · subst hj
      rw [update_self]
      omega
    · rw [update_of_ne hj]
  · rw [update_of_ne (by omega)]
    exact h.range j hj

theorem Counts.release (hi : 0 < n i) : Counts cfg (s.releaseTag i) (update n i (n i - 1)) := by
  obtain ⟨l, hq, hmem⟩ := h.free
  have hle := h.le_of_pos hi
  have he := h.expect i
  have hsub : ((s.tmList i).expectCqe - 1).toNat = n i - 1 := by
    rw [UInt8.toNat_sub_of_le _ _ (by rw [UInt8.le_iff_toNat_le]; simp; omega), he]
    rfl
  have hzero : (s.tmList i).expectCqe - 1 = 0 ↔ n i - 1 = 0 := by
    rw [← UInt8.toNat_inj, hsub]
    rfl
  have hexp : ∀ j, ((s.releaseTag i).tmList j).expectCqe.toNat =
      update n i (n i - 1) j := by
    intro j
    have hsame : ((s.releaseTag i).tmList j).expectCqe =
        ((s.edit i fun e => { e with expectCqe := e.expectCqe - 1 }).tmList j).expectCqe := by
      simp only [Srq.releaseTag]
      split
      · dsimp only
        refine (Srq.edit_field_same (g := TagEntry.expectCqe) ?_ j).trans
          (Srq.edit_field_same (g := TagEntry.expectCqe) ?_ j)
        · intro e
          rfl
        · intro e
          rfl
      · rfl
    rw [hsame]
    by_cases hj : j = i
    · subst hj
      rwa [Srq.edit_self, update_self]
    · rw [Srq.edit_of_ne hj, update_of_ne hj]
      exact h.expect j
  refine ⟨hexp, ?_, fun j hj => ?_⟩
  · have hout : i ∉ l := by
      rw [hmem]
      omega
    simp only [Srq.releaseTag, Srq.edit_self, hzero]
    split
    · rename_i h0
      refine ⟨l ++ [i], ?_, fun j => ?_⟩
      · have hnext : (fun j => (((s.edit i fun e => { e with expectCqe := e.expectCqe - 1 }).edit i
              fun e => { e with next := none }).edit s.tmTail
              fun e => { e with next := some i }).tmList j |>.next) =
            update (update (fun j => (s.tmList j).next) i none) s.tmTail
              (some i) := by
          rw [Srq.edit_field TagEntry.next, Srq.edit_field TagEntry.next,
            Srq.edit_field TagEntry.next]
          simp
        have hpush := hq.push hout
        rwa [← hnext] at hpush
      · rw [mem_append, mem_singleton, hmem]
        by_cases hj : j = i
        · subst hj
          rw [update_self]
          omega
        · rw [update_of_ne hj]
          omega
    · rename_i h0
      refine ⟨l, hq.congr fun x _ => Srq.edit_field_same (g := TagEntry.next) (by intro e; rfl) x,
        fun j => ?_⟩
      rw [hmem]
      by_cases hj : j = i
      · subst hj
        rw [update_self]
        omega
      · rw [update_of_ne hj]
  · rw [update_of_ne (by omega)]
    exact h.range j hj

theorem Counts.take {b : ℕ} (hb : (s.tmList s.tmHead).next = some b) (wr : OpsWr) (r : UInt64) :
    Counts cfg (s.takeTag b wr r) (update n s.tmHead 1) := by
  obtain ⟨l, hq, hmem⟩ := h.free
  obtain ⟨hle, hzero⟩ := h.mem_tmHead
  obtain ⟨l', rfl, hq'⟩ := hq.pop hb
  have hout := (nodup_cons.mp hq.nodup).1
  refine ⟨fun j => ?_, ⟨l', ?_, fun j => ?_⟩, fun j hj => ?_⟩
  · by_cases hj : j = s.tmHead
    · subst hj
      have he := h.expect s.tmHead
      simp only [Srq.takeTag, Srq.edit_self, update_self, UInt8.toNat_add]
      simp
      omega
    · simp only [Srq.takeTag]
      rw [Srq.edit_of_ne hj, update_of_ne hj]
      exact h.expect j
  · have hnext : (fun j => ((s.takeTag b wr r).tmList j).next) =
        update (fun j => (s.tmList j).next) s.tmHead none := by
      simp only [Srq.takeTag]
      exact Srq.edit_field TagEntry.next _
    rwa [hnext]
  · by_cases hj : j = s.tmHead
    · subst hj
      rw [update_self]
      exact ⟨fun hm => absurd hm hout, fun hm => absurd hm.2 (by omega)⟩
    · rw [update_of_ne hj, ← hmem, mem_cons]
      tauto
  · rw [update_of_ne (by omega)]
    exact h.range j hj

theorem Counts.addOp (nreq : ℕ) (wrId : UInt64) (hi : 0 < n i) (hlt : n i < 255) :
    Counts cfg (s.addOp cfg (some i) wrId nreq) (update n i (n i + 1)) := by
  have hsame : Counts cfg { s with
      op := update s.op (s.opTail % cfg.wqeCnt) ⟨some i, wrId, s.head + nreq⟩
      opTail := s.opTail + 1 } n :=
    h.congr (fun _ => rfl) (fun _ => rfl) rfl rfl
  exact hsame.more hi hlt

theorem Counts.setBuffer (sg : Option (UInt64 × UInt32)) : Counts cfg (s.setBuffer i sg) n := by
  unfold Srq.setBuffer
  split
  · split
    · exact h
    · exact h.congr (Srq.edit_field_same (g := TagEntry.expectCqe) (by intro e; rfl))
        (Srq.edit_field_same (g := TagEntry.next) (by intro e; rfl)) rfl rfl
  · exact h

end

theorem Srq.wrId_releaseTag (j : ℕ) : ((s.releaseTag i).tmList j).wrId = (s.tmList j).wrId := by
  simp only [releaseTag]
  split
  · dsimp only
    rw [edit_field_same (g := TagEntry.wrId) (by intro e; rfl),
      edit_field_same (g := TagEntry.wrId) (by intro e; rfl),
      edit_field_same (g := TagEntry.wrId) (by intro e; rfl)]
  · exact edit_field_same (g := TagEntry.wrId) (by intro e; rfl) j

theorem Srq.wrId_addOp (tag : Option ℕ) (wrId : UInt64) (j : ℕ) :
    ((s.addOp cfg tag wrId nreq).tmList j).wrId = (s.tmList j).wrId := by
  cases tag with
  | none => rfl
  | some i =>
    simp only [addOp]
    exact edit_field_same (g := TagEntry.wrId) (by intro e; rfl) j

variable (sg : Option (UInt64 × UInt32))

theorem Srq.wrId_setBuffer (j : ℕ) : ((s.setBuffer i sg).tmList j).wrId = (s.tmList j).wrId := by
  unfold setBuffer
  split
  · split
    · rfl
    · exact edit_field_same (g := TagEntry.wrId) (by intro e; rfl) j
  · rfl

theorem Srq.wrId_takeTag (b : ℕ) (wr : OpsWr) (r : UInt64) :
    (fun j => ((s.takeTag b wr r).tmList j).wrId) =
      update (fun j => (s.tmList j).wrId) s.tmHead r := by
  simp only [takeTag]
  exact edit_field TagEntry.wrId _

theorem Srq.tmHead_addOp (tag : Option ℕ) (wrId : UInt64) :
    (s.addOp cfg tag wrId nreq).tmHead = s.tmHead := by
  cases tag <;> rfl

theorem Srq.tmHead_setBuffer : (s.setBuffer i sg).tmHead = s.tmHead := by
  unfold setBuffer
  split
  · split <;> rfl
  · rfl

theorem Srq.ring_setBuffer : (s.setBuffer i sg).ring = s.ring := by
  unfold setBuffer
  split
  · split <;> rfl
  · rfl

theorem Srq.tmHead_releaseTag : (s.releaseTag i).tmHead = s.tmHead := by
  simp only [releaseTag]
  split <;> rfl

theorem Srq.ring_releaseTag : (s.releaseTag i).ring = s.ring := by
  simp only [releaseTag]
  split <;> rfl

theorem Ops.congr (h : Ops cfg s nreq ops) (hr : t.ring = s.ring) : Ops cfg t nreq ops := by
  simp only [Srq.ring, Prod.mk.injEq] at hr
  obtain ⟨hop, hhead, htail, hsh, hst⟩ := hr
  obtain ⟨h₁, h₂, h₃, h₄, h₅⟩ := h
  refine ⟨?_, ?_, h₃, ?_, ?_⟩
  · rwa [hop, hhead]
  · rwa [htail, hhead]
  · rwa [hst, hsh]
  · rwa [hst, hsh]

theorem length_le_of_sorted {l : List SrqOp} {a b : ℕ} (hs : l.Pairwise (·.wqeHead < ·.wqeHead))
    (hw : ∀ o ∈ l, a ≤ o.wqeHead ∧ o.wqeHead < b) : l.length ≤ b - a := by
  induction l generalizing a with
  | nil => exact Nat.zero_le _
  | cons o l ih =>
    obtain ⟨hlt, hs⟩ := pairwise_cons.mp hs
    have ho := hw o mem_cons_self
    have hrest := ih (a := o.wqeHead + 1) hs fun o' ho' =>
      ⟨hlt o' ho', (hw o' (mem_cons_of_mem o ho')).2⟩
    rw [length_cons]
    omega

/-- An operation that asks for a completion goes to the end of the ring. -/
theorem Ops.add (h : Ops cfg s nreq ops) (hov : s.wqOverflow cfg nreq = false) (tag : Option ℕ)
    (wrId : UInt64) : Ops cfg (s.addOp cfg tag wrId nreq) (nreq + 1)
      (ops ++ [⟨tag, wrId, s.head + nreq⟩]) := by
  have hlen := length_le_of_sorted h.sorted h.window
  have hroom : s.head - s.tail + nreq < cfg.maxPost := by
    simpa [Srq.wqOverflow] using hov
  have hpost := cfg.maxPost_le
  have htail := h.tail_le
  have hcore : Ops cfg { s with
      op := update s.op (s.opTail % cfg.wqeCnt) ⟨tag, wrId, s.head + nreq⟩
      opTail := s.opTail + 1 } (nreq + 1) (ops ++ [⟨tag, wrId, s.head + nreq⟩]) := by
    refine ⟨Numbered.From.concat ?_ ?_, ?_, ?_, ?_, htail⟩
    · refine h.slots.imp fun k o hk hk' ho => ?_
      have hne : k % cfg.wqeCnt ≠ s.opTail % cfg.wqeCnt := by
        intro heq
        have := Cyclic.eq_of_mod_eq hk (by omega) (by rw [h.opTail]; omega)
          (by rw [h.opTail]; omega) heq
        rw [h.opTail] at this
        omega
      exact (update_of_ne hne _ _).trans ho
    · rw [← h.opTail]
      exact update_self ..
    · have htl := h.opTail
      simp only [length_append, length_singleton]
      omega
    · refine pairwise_append.mpr ⟨h.sorted, pairwise_singleton _ _, ?_⟩
      intro o ho o' ho'
      rw [mem_singleton.mp ho']
      exact (h.window o ho).2
    · intro o ho
      rw [mem_append, mem_singleton] at ho
      rcases ho with ho | rfl
      · have := h.window o ho
        exact ⟨this.1, by simp only; omega⟩
      · exact ⟨by simp only; omega, by simp only; omega⟩
  cases tag with
  | none => exact hcore
  | some i => exact hcore.congr rfl

theorem Ops.skip (h : Ops cfg s nreq ops) : Ops cfg s (nreq + 1) ops :=
  ⟨h.slots, h.opTail, h.sorted, fun o ho => ⟨(h.window o ho).1, by
    have := (h.window o ho).2
    omega⟩, h.tail_le⟩

theorem Ops.poll {o : SrqOp} (h : Ops cfg s 0 (o :: ops)) : s.op (s.opHead % cfg.wqeCnt) = o ∧
      Ops cfg { s with opHead := s.opHead + 1, tail := o.wqeHead + 1 } 0 ops := by
  obtain ⟨hslot, hslots⟩ := h.slots
  obtain ⟨hlt, hsorted⟩ := pairwise_cons.mp h.sorted
  have ho := h.window o mem_cons_self
  have htl := h.opTail
  rw [length_cons] at htl
  refine ⟨hslot, hslots, by simp only; omega, hsorted, fun o' ho' => ?_, by simp only; omega⟩
  exact ⟨hlt o' ho', (h.window o' (mem_cons_of_mem o ho')).2⟩

end

end Fusa.Driver.Tm

import Fusa.Table.EditRuns

/-! No `update` and no `rmw` is lost: every step of a run keeps the value of the key equal to what
the successful calls leave. -/
namespace Fusa.Table.Edits
open Transition Function EditCall Option List

variable {hash : Bytes → Hashes} {key v₀ : Bytes} {m₀ : Memory} {q₀ c : ℕ} {s t : State}
  {w : Slot} {q : ℕ}

/-! ### One call -/

/-- `search` answers with the block at position `q₀` of the key. -/
structure Home (hash : Bytes → Hashes) (key : Bytes) (m₀ : Memory) (q₀ : ℕ) : Prop where
  lt : q₀ < 28
  slot : matchesKey m₀.block (hash key) key (m₀.slot (home hash key m₀ q₀))
  first : ∀ q < q₀, ¬ matchesKey m₀.block (hash key) key (m₀.slot (home hash key m₀ q))

theorem Inv.word (h : Inv hash key m₀ q₀ v₀ s) (q : ℕ) :
    Word hash key m₀ q₀ s q (s.heap.mem.slot (home hash key m₀ q)) := by
  unfold Word
  split
  · rename_i hq
    rw [hq]
    exact h.slot
  · rename_i hq
    exact h.other _ hq

theorem Published.candidate {c : EditCall} (h : Published hash key s (c.buf.slot q))
    (hk : c.key = key) : c.candidate hash q := by
  have hm := h.1
  simp only [matchesKey, decide_eq_true_eq] at hm
  simp only [EditCall.candidate, decide_eq_true_eq, hk]
  exact ⟨hm.1, hm.2.1⟩

theorem atPc_nextBlock {c : EditCall} {n : ℕ} (hq₀ : q₀ < 28) (hk : c.key = key) (hn : n ≤ q₀)
    (hb : c.base = (m₀.dir.entry (hash key)).pointer)
    (hw : ∀ q < 28, Word hash key m₀ q₀ s q (c.buf.slot q)) :
    AtPc hash key m₀ q₀ s { c with pc := c.nextBlock hash n } (c.nextBlock hash n) ∧
      ∃ p, c.nextBlock hash n = .block p := by
  obtain ⟨p, -, hp, hc, he⟩ :=
    c.nextBlock_eq hq₀ ((hw q₀ hq₀).published.candidate hk) hn
  rw [he]
  exact ⟨⟨⟨hp, hc⟩, hb, hw⟩, p, rfl⟩

variable {b : Block} {old : Bytes} {c' : EditCall}

theorem Inv.eq_of_accepted {c : EditCall} (hh : Home hash key m₀ q₀) (h : Inv hash key m₀ q₀ v₀ s)
    (hk : c.key = key) (hat : AtPc hash key m₀ q₀ s c (.block q))
    (hb : s.heap.mem.block (c.buf.slot q).pointer = some b) (hr : readBlock key b = some old) :
    q = q₀ := by
  obtain ⟨⟨hle, hc⟩, -, hw⟩ := hat
  by_contra hne
  have hlt : q < q₀ := by omega
  have hword := hw q (by have := hh.lt; omega)
  unfold Word at hword
  by_cases hq : home hash key m₀ q = home hash key m₀ q₀
  · exact hh.first q hlt (hq ▸ hh.slot)
  · rw [if_neg hq] at hword
    simp only [candidate, decide_eq_true_eq, hk] at hc
    rw [hword] at hc hb
    rw [(h.old _ hc.1).2] at hb
    refine hh.first q hlt ?_
    simp [matchesKey, hc.1, hc.2, hb, hr]

/-! ### Steps -/

section
variable (hq₀ : q₀ < 28) (h : Inv hash key m₀ q₀ v₀ s)
include hq₀ h

theorem Inv.quiet (hd : c'.dirCache = (s.calls c).dirCache)
    (hargs : done c'.pc = false → c'.key = key ∧ Args key c')
    (hown : c'.owns → (s.calls c).owns ∧ c'.newSlot = (s.calls c).newSlot ∧
      c'.value = (s.calls c).value) (hat : AtPc hash key m₀ q₀ s c' c'.pc) :
    Inv hash key m₀ q₀ v₀ { s with calls := update s.calls c c' } := by
  have hf : Frame c s { s with calls := update s.calls c c' } := by
    refine ⟨fun d hd => update_of_ne hd _ _, fun p hp _ => ⟨hp, rfl⟩, fun ho => ?_⟩
    simp only [update_self] at ho ⊢
    exact .inl ⟨(hown ho).1, (hown ho).2.1⟩
  refine h.of_frame hq₀ hf rfl rfl rfl rfl ?_
  simp only [update_self]
  refine ⟨hd.trans (h.call c).dir, hargs, fun ho => ?_, hat.mono hq₀ hf.keeps⟩
  obtain ⟨ho', hs, hv⟩ := hown ho
  rw [hs, hv]
  exact (h.call c).block ho'

theorem Inv.alloc {e : EditCall} {pointer : ℕ} (hp : pointer ≠ 0)
    (hfresh : s.heap.live pointer = false) (hd : e.dirCache = (s.calls c).dirCache)
    (hargs : done e.pc = false → e.key = key ∧ Args key e)
    (hslot : e.newSlot = blockSlot hash key e.value pointer) (hat : AtPc hash key m₀ q₀ s e e.pc) :
    Inv hash key m₀ q₀ v₀
      { s with heap := alloc s.heap key e.value pointer
               calls := update s.calls c e } := by
  have hf : Frame c s { s with heap := Edits.alloc s.heap key e.value pointer
                               calls := update s.calls c e } := by
    refine ⟨fun d hd => update_of_ne hd _ _, fun p hlive _ => ?_, fun _ => .inr ?_⟩
    · have hne : p ≠ pointer := by
        rintro rfl
        exact absurd (hlive.symm.trans hfresh) (by decide)
      simp only [Edits.alloc, Memory.writeBlock, update_of_ne hne]
      exact ⟨hlive, trivial⟩
    · simp only [update_self, hslot]
      exact hfresh
  refine h.of_frame hq₀ hf rfl rfl rfl rfl ?_
  simp only [update_self]
  refine ⟨hd.trans (h.call c).dir, hargs, fun _ => ?_, hat.mono hq₀ hf.keeps⟩
  rw [hslot]
  refine ⟨update_self .., fun hnull => hp (congrArg Slot.pointer hnull), rfl, ?_⟩
  exact update_self ..

theorem Inv.free (hd : c'.dirCache = (s.calls c).dirCache)
    (hargs : done c'.pc = false → c'.key = key ∧ Args key c') (ho : (s.calls c).owns)
    (hno : c'.owns = false) (hat : AtPc hash key m₀ q₀ s c' c'.pc) :
    Inv hash key m₀ q₀ v₀
      { s with heap := { s.heap with
                 live := update s.heap.live (s.calls c).newSlot.pointer false }
               calls := update s.calls c c' } := by
  have hf : Frame c s
      { s with heap := { s.heap with
                 live := update s.heap.live (s.calls c).newSlot.pointer false }
               calls := update s.calls c c' } := by
    refine ⟨fun d hd => update_of_ne hd _ _, fun p hlive hp => ⟨?_, rfl⟩, fun hc => ?_⟩
    · simp only [update_of_ne (hp ho).symm]
      exact hlive
    · simp only [update_self] at hc
      simp [hno] at hc
  refine h.of_frame hq₀ hf rfl rfl rfl rfl ?_
  simp only [update_self]
  refine ⟨hd.trans (h.call c).dir, hargs, fun hc => ?_, hat.mono hq₀ hf.keeps⟩
  simp [hno] at hc

theorem Inv.replaced (hpc : (s.calls c).pc = .cas q)
    (hm : s.heap.mem.slot ((s.calls c).addr hash q) = (s.calls c).buf.slot q)
    (hd : c'.dirCache = (s.calls c).dirCache) (hok : c'.pc = .ok) (he : c'.edit = (s.calls c).edit)
    :
    Inv hash key m₀ q₀ v₀
      { heap := { s.heap with mem := { s.heap.mem with
          slot := update s.heap.mem.slot ((s.calls c).addr hash q)
            (s.calls c).newSlot } }
        calls := update s.calls c c', log := s.log ++ [c'.edit] } := by
  have howns : (s.calls c).owns := by simp [owns, hpc]
  have hno : c'.owns = false := by simp [owns, hok]
  obtain ⟨hck, hargs⟩ := (h.call c).args (hpc ▸ rfl)
  obtain ⟨hlive, hne, hfp, hb⟩ := (h.call c).block howns
  have hat := (h.call c).at_pc
  rw [hpc] at hat
  obtain ⟨rfl, hbase, hw, hcomp⟩ := hat
  have haddr : (s.calls c).addr hash q = home hash key m₀ q := by
    rw [addr, hbase, hck]
    rfl
  rw [haddr] at hm ⊢
  -- the value that the call leaves
  obtain ⟨hnew, hvalue⟩ : applied (s.log ++ [c'.edit]) v₀ = (s.calls c).value ∧
      Storable key (s.calls c).value := by
    rw [applied, foldl_append, he]
    cases hedit : (s.calls c).edit with
    | update value =>
      rw [Args, hedit] at hargs
      rw [hargs.1]
      exact ⟨rfl, hargs.2⟩
    | rmw f =>
      obtain ⟨old, hv, hold⟩ := hcomp f hedit
      rw [← hm, h.value, Option.some.injEq] at hold
      rw [Args, hedit] at hargs
      rw [hv, ← hold]
      exact ⟨rfl, hargs _ h.storable⟩
  have hread : readBlock key ⟨key, (s.calls c).value⟩ = some (s.calls c).value := by
    rw [readBlock_self ⟨key, (s.calls c).value⟩, strncpy_of_nulFree hvalue.1]
  generalize ht : State.mk _ _ _ = t
  have hcalls : t.calls = update s.calls c c' := by rw [← ht]
  have hmem : t.heap.mem.block = s.heap.mem.block := by rw [← ht]
  have hheap : t.heap.live = s.heap.live := by rw [← ht]
  have hslots : t.heap.mem.slot =
      update s.heap.mem.slot (home hash key m₀ q) (s.calls c).newSlot := by rw [← ht]
  have hf : Frame c s t := by
    refine ⟨fun d hd => ?_, fun p hp _ => ?_, fun ho => ?_⟩
    · rw [hcalls, update_of_ne hd]
    · rw [hheap, hmem]
      exact ⟨hp, rfl⟩
    · rw [hcalls, update_self] at ho
      simp [hno] at ho
  have hshared : Shared t (s.calls c).newSlot.pointer := by
    refine ⟨by rw [hheap]; exact hlive, fun d ho hp => ?_⟩
    have hdc : d ≠ c := by
      rintro rfl
      rw [hcalls, update_self] at ho
      simp [hno] at ho
    rw [hf.calls d hdc] at ho hp
    exact hdc (h.owned d c ho howns hp)
  have hown : t.heap.mem.slot (home hash key m₀ q) = (s.calls c).newSlot := by
    rw [hslots, update_self]
  have hblock : (t.heap.mem.block (s.calls c).newSlot.pointer).bind (readBlock key) =
      some (s.calls c).value := by
    rwa [hmem, hb]
  refine ⟨?_, ?_, fun y hy => ?_, ?_, ?_, fun y hy => ?_, h.owned_step hf, fun d => ?_⟩
  · rw [← ht]
    exact h.dir
  · rw [← ht]
    exact h.header
  · rw [hslots, update_of_ne hy]
    exact h.other y hy
  · rw [hown]
    refine ⟨?_, hshared, _, hblock, hvalue⟩
    simp [matchesKey, hne, hfp, hblock]
  · rw [hown, hblock, ← hnew, ← ht]
  · obtain ⟨hs, hbl⟩ := h.old y hy
    exact ⟨(hf.keeps _ hs).1, (hf.keeps _ hs).2.trans hbl⟩
  · by_cases hdc : d = c
    · subst hdc
      rw [hcalls, update_self]
      refine ⟨hd.trans (h.call d).dir, fun hf => ?_, fun ho => ?_, ?_⟩
      · rw [hok] at hf
        cases hf
      · simp [hno] at ho
      · rw [hok]
        trivial
    · exact h.others hq₀ hf hdc

end

theorem Inv.start (hw : WellFormed hash m₀) (hh : Home hash key m₀ q₀)
    (hv : (m₀.block (m₀.slot (home hash key m₀ q₀)).pointer).bind (readBlock key) = some v₀)
    (hst : Storable key v₀) (h : (system hash key m₀).start s) : Inv hash key m₀ q₀ v₀ s := by
  obtain ⟨hm, hlive, hc, hl⟩ := h
  have hno : ∀ c, (s.calls c).owns = false := fun c => by simp [owns, (hc c).1]
  have hshared : ∀ y, m₀.slot y ≠ .null → Shared s (m₀.slot y).pointer := fun y hy =>
    ⟨hlive y hy, fun c ho => by simp [hno c] at ho⟩
  have hslot := hh.slot
  simp only [matchesKey, decide_eq_true_eq] at hslot
  subst hm
  refine ⟨rfl, rfl, fun _ _ => rfl, ⟨hh.slot, hshared _ hslot.1, v₀, hv, hst⟩, ?_,
    fun y hy => ⟨hshared y hy, rfl⟩, fun c d ho => by simp [hno c] at ho, fun c => ?_⟩
  · rwa [hl]
  · refine ⟨(hc c).2, fun hf => ?_, fun ho => by simp [hno c] at ho, ?_⟩
    · rw [(hc c).1] at hf
      cases hf
    · rw [(hc c).1]
      trivial

theorem Inv.entry_eq (h : Inv hash key m₀ q₀ v₀ s) (hk : (s.calls c).key = key) :
    (s.calls c).entry hash = m₀.dir.entry (hash key) := by
  rw [EditCall.entry, (h.call c).dir, hk]

section
variable (hh : Home hash key m₀ q₀) (h : Inv hash key m₀ q₀ v₀ s)
include hh h

theorem Inv.step_read0 (hpc : (s.calls c).pc = .read0) :
    let c' : EditCall :=
      { s.calls c with
        base := ((s.calls c).entry hash).pointer
        entryIdx := (s.calls c).dirCache.index (hash (s.calls c).key)
        buf := (s.calls c).read hash s.heap.mem 0, pc := .read1 }
    Inv hash key m₀ q₀ v₀ { s with calls := update s.calls c c' } := by
  intro c'
  obtain ⟨hk, hargs⟩ := (h.call c).args (hpc ▸ rfl)
  have hent := h.entry_eq hk
  refine h.quiet hh.lt rfl (fun _ => ⟨hk, hargs⟩) (fun ho => ⟨?_, rfl, rfl⟩)
    ⟨congrArg SubTableEntry.pointer hent, fun q hq hg => ?_, fun i hi => ?_⟩
  · simpa [owns, hpc] using ho
  · have hread : c'.buf.slot q = s.heap.mem.slot (home hash key m₀ q) := by
      simp only [c', EditCall.read, hent, hk]
      exact if_pos hg
    rw [hread]
    exact h.word q
  · simp only [c', EditCall.read, hent, hk, readGroup, if_pos hi, h.header]

theorem Inv.step_read1 (hw : WellFormed hash m₀) (hpc : (s.calls c).pc = .read1) :
    let c₁ := { s.calls c with buf := (s.calls c).read hash s.heap.mem 1 }
    Inv hash key m₀ q₀ v₀
        { s with calls := update s.calls c { c₁ with pc := c₁.found hash } } ∧
      c₁.found hash ≠ .ok := by
  intro c₁
  obtain ⟨hk, hargs⟩ := (h.call c).args (hpc ▸ rfl)
  have hent := h.entry_eq hk
  have hat := (h.call c).at_pc
  rw [hpc] at hat
  obtain ⟨hbase, hwords, hheads⟩ := hat
  have hwords₁ : ∀ q < 28, Word hash key m₀ q₀ s q (c₁.buf.slot q) := by
    intro q hq
    by_cases hg : posGroup q = 1
    · have hread : c₁.buf.slot q = s.heap.mem.slot (home hash key m₀ q) := by
        simp only [c₁, EditCall.read, hent, hk]
        exact if_pos hg
      rw [hread]
      exact h.word q
    · have hread : c₁.buf.slot q = (s.calls c).buf.slot q := if_neg hg
      rw [hread]
      exact hwords q hq ((posGroup_lt q).resolve_right hg)
  have hheads₁ : ∀ i, c₁.buf.header i =
      m₀.header (bucketAddr (m₀.dir.entry (hash key)).pointer (bucketNo (hash key) i)) := by
    intro i
    by_cases hi : i % 2 = 1
    · simp only [c₁, EditCall.read, hent, hk, readGroup, if_pos hi, h.header]
    · simp only [c₁, EditCall.read, readGroup, if_neg hi]
      exact hheads i (by omega)
  have hfound : c₁.found hash = c₁.nextBlock hash 0 := by
    refine if_neg ?_
    simp only [List.any_eq_true, not_exists, not_and]
    intro i _
    have he : c₁.entry hash = m₀.dir.entry (hash key) := hent
    rw [hheads₁, he, show c₁.key = key from hk]
    exact ne_true_of_eq_false (hw.not_stale key i)
  obtain ⟨hnext, p, hp⟩ := atPc_nextBlock (c := c₁) hh.lt hk (Nat.zero_le _) hbase hwords₁
  refine ⟨h.quiet hh.lt rfl (fun _ => ⟨hk, hargs⟩) (fun ho => ⟨?_, rfl, rfl⟩) ?_, ?_⟩
  · simpa [owns, hpc, hfound, hp] using ho
  · rwa [hfound]
  · simp [hfound, hp]

theorem Inv.step_accept (hpc : (s.calls c).pc = .block q)
    (hb : s.heap.mem.block ((s.calls c).buf.slot q).pointer = some b)
    (hr : readBlock (s.calls c).key b = some old) :
    Inv hash key m₀ q₀ v₀
        { s with calls := update s.calls c ((s.calls c).accepted q old) } ∧
      ((s.calls c).accepted q old).pc ≠ .ok := by
  obtain ⟨hk, hargs⟩ := (h.call c).args (hpc ▸ rfl)
  have hat := (h.call c).at_pc
  rw [hpc] at hat
  rw [hk] at hr
  obtain rfl := h.eq_of_accepted hh hk hat hb hr
  obtain ⟨-, hbase, hwords⟩ := hat
  unfold EditCall.accepted
  cases he : (s.calls c).edit with
  | update value =>
    refine ⟨h.quiet hh.lt rfl (fun _ => ⟨hk, ?_⟩) (fun _ => ⟨?_, rfl, rfl⟩)
      ⟨rfl, hbase, hwords, fun f hf => ?_⟩, by simp⟩
    · simpa [Args, he] using hargs
    · simp [owns, hpc, he, Edit.isUpdate]
    · simp at hf
  | rmw f =>
    refine ⟨h.quiet hh.lt rfl (fun _ => ⟨hk, ?_⟩) (fun ho => ?_)
      ⟨rfl, hbase, hwords, fun g hg => ?_, f, rfl⟩, by simp⟩
    · simpa [Args, he] using hargs
    · simp [owns] at ho
    · cases hg
      refine ⟨old, rfl, ?_⟩
      simp only [hb]
      exact hr

theorem Inv.step_reject (hpc : (s.calls c).pc = .block q)
    (hr : (s.heap.mem.block ((s.calls c).buf.slot q).pointer).bind
      (readBlock (s.calls c).key) = none) :
    let c' : EditCall := { s.calls c with pc := (s.calls c).nextBlock hash (q + 1) }
    Inv hash key m₀ q₀ v₀ { s with calls := update s.calls c c' } ∧ c'.pc ≠ .ok := by
  intro c'
  obtain ⟨hk, hargs⟩ := (h.call c).args (hpc ▸ rfl)
  have hat := (h.call c).at_pc
  rw [hpc] at hat
  obtain ⟨⟨hle, -⟩, hbase, hwords⟩ := hat
  have hlt : q ≠ q₀ := by
    rintro rfl
    obtain ⟨-, -, old, hold, -⟩ := (hwords q hh.lt).published
    rw [hk, hold] at hr
    cases hr
  obtain ⟨hnext, p, hp⟩ :=
    atPc_nextBlock (c := s.calls c) (n := q + 1) hh.lt hk (by omega) hbase hwords
  refine ⟨h.quiet hh.lt rfl (fun _ => ⟨hk, hargs⟩) (fun ho => ⟨?_, rfl, rfl⟩) hnext, ?_⟩
  · simpa [c', owns, hpc, hp] using ho
  · simp [c', hp]

theorem Inv.step_call (hw : WellFormed hash m₀) (hn : next hash key s (.step c) = some t) :
    Inv hash key m₀ q₀ v₀ t := by
  obtain ⟨⟨h', c'⟩, hs, rfl⟩ := map_eq_some_iff.mp hn
  cases editStep_cases hs with
  | read0 hpc => exact h.step_read0 hh hpc
  | read1 hpc =>
    obtain ⟨hinv, hne⟩ := h.step_read1 hh hw hpc
    simpa only [if_neg hne] using hinv
  | check hpc =>
    have hat := (h.call c).at_pc
    rcases hpc with hpc | hpc <;> rw [hpc] at hat <;> exact hat.elim
  | accept hpc hb hr =>
    obtain ⟨hinv, hne⟩ := h.step_accept hh hpc hb hr
    simpa only [if_neg hne] using hinv
  | reject hpc hr =>
    obtain ⟨hinv, hne⟩ := h.step_reject hh hpc hr
    simpa only [if_neg hne] using hinv
  | replaced hpc hm => exact h.replaced hh.lt hpc hm rfl rfl rfl
  | lostUpdate hpc he hm =>
    obtain ⟨hk, hargs⟩ := (h.call c).args (hpc ▸ rfl)
    refine h.quiet hh.lt rfl (fun _ => ⟨hk, hargs⟩) (fun _ => ⟨?_, rfl, rfl⟩) trivial
    simp [owns, hpc]
  | lostRmw hpc he hm =>
    obtain ⟨hk, hargs⟩ := (h.call c).args (hpc ▸ rfl)
    refine h.free hh.lt rfl (fun _ => ⟨hk, hargs⟩) ?_ ?_ trivial
    · simp [owns, hpc]
    · simp [owns, he, Edit.isUpdate]

theorem Inv.step {a : Action} (hw : WellFormed hash m₀) (hc : Rely key s a)
    (hn : next hash key s a = some t) : Inv hash key m₀ q₀ v₀ t := by
  obtain ⟨hfresh, hc⟩ := hc
  cases a with
  | update c value pointer =>
    obtain ⟨hg, ⟨⟩⟩ := ite_none_right_eq_some.mp hn
    exact h.alloc (c := c) (e := (s.calls c).update hash key value pointer) hh.lt hg.2 hfresh rfl
      (fun _ => ⟨rfl, rfl, hc⟩) rfl trivial
  | rmw c transform =>
    obtain ⟨-, ⟨⟩⟩ := ite_none_right_eq_some.mp hn
    refine h.quiet hh.lt rfl (fun _ => ⟨rfl, hc⟩) (fun ho => ?_) trivial
    simp [owns, EditCall.rmw, Edit.isUpdate] at ho
  | write c pointer =>
    simp only [next] at hn
    split at hn
    · rename_i q hpc
      split at hn
      · rename_i hp
        cases hn
        obtain ⟨hk, hargs⟩ := (h.call c).args (hpc ▸ rfl)
        have hat := (h.call c).at_pc
        rw [hpc] at hat
        obtain ⟨hq, hbase, hwords, hcomp, -⟩ := hat
        refine h.alloc (c := c) (e := (s.calls c).write hash q pointer) hh.lt hp hfresh rfl
          (fun _ => ⟨hk, hargs⟩) ?_ ⟨hq, hbase, hwords, hcomp⟩
        simp only [EditCall.write, hk]
      · cases hn
    · cases hn
  | step c => exact h.step_call hh hw hn

end

theorem exists_home (hv : search hash m₀ m₀.dir key = some v₀) :
    ∃ q₀, Home hash key m₀ q₀ ∧
      (m₀.block (m₀.slot (home hash key m₀ q₀)).pointer).bind (readBlock key) = some v₀ := by
  rw [search_eq_searchAt] at hv
  obtain ⟨q, hq, hval⟩ := bind_eq_some_iff.mp hv
  obtain ⟨hm, hmem, hmin⟩ := List.find?_range_eq_some.mp hq
  refine ⟨q, ⟨mem_range.mp hmem, hm, fun q' hq' hm' => ?_⟩, hval⟩
  have hno := hmin q' hq'
  simp only [Bool.not_eq_eq_eq_not, Bool.not_true] at hno
  exact absurd (hm'.symm.trans hno) (by decide)

theorem Inv.search_eq (hh : Home hash key m₀ q₀) (h : Inv hash key m₀ q₀ v₀ s) :
    search hash s.heap.mem s.heap.mem.dir key = some (applied s.log v₀) := by
  have hfirst : ∀ q < q₀,
      matchesKey s.heap.mem.block (hash key) key (s.heap.mem.slot (home hash key m₀ q)) =
        false := by
    intro q hq
    have hne : home hash key m₀ q ≠ home hash key m₀ q₀ := fun he => hh.first q hq (he ▸ hh.slot)
    have hno := hh.first q hq
    rw [h.other _ hne]
    by_cases hnull : m₀.slot (home hash key m₀ q) = .null
    · simp [matchesKey, hnull]
    · simpa [matchesKey, (h.old _ hnull).2] using hno
  have hfind : findKey s.heap.mem.block (hash key) key
      (fun q => s.heap.mem.slot (home hash key m₀ q)) = some q₀ := by
    refine List.find?_range_eq_some.mpr ⟨h.slot.1, mem_range.mpr hh.lt, fun q hq => ?_⟩
    simp only [hfirst q hq, Bool.not_false]
  rw [search_eq_searchAt, h.dir]
  change (findKey s.heap.mem.block (hash key) key
    (fun q => s.heap.mem.slot (home hash key m₀ q))).bind _ = _
  rw [hfind]
  exact h.value

theorem noLostUpdate_of_rely (hw : WellFormed hash m₀)
    (hv : search hash m₀ m₀.dir key = some v₀) (hst : Storable key v₀)
    (h : (system hash key m₀).RunWith (Rely key) s) : NoLostUpdate hash key v₀ s := by
  obtain ⟨q₀, hh, hval⟩ := exists_home hv
  have hinv : Inv hash key m₀ q₀ v₀ s :=
    h.invariant (P := Inv hash key m₀ q₀ v₀) (fun s hs => .start hw hh hval hst hs)
      fun s a t hs hc hn => hs.step hh hw hc hn
  exact hinv.search_eq hh

/-! ### A table with one key -/

instance (s : State) (a : Action) : Decidable (Fresh s a) := by
  cases a <;> unfold Fresh <;> infer_instance

def stored : Memory := storing hashFunction [107] [97, 98] 64

def startState : State where
  heap := ⟨stored, fun p => p = 64⟩
  calls _ :=
    { pc := .idle, key := [], edit := .update [], value := [], newSlot := .null
      dirCache := setup.dir, base := 0, buf := ⟨fun _ => ⟨0, 0⟩, fun _ => .null⟩, entryIdx := 0 }
  log := []

theorem start_startState : (system hashFunction [107] stored).start startState := by
  refine ⟨rfl, fun a ha => ?_, fun _ => ⟨rfl, rfl⟩, rfl⟩
  rw [stored, (eq_of_slot_storing ha).2.1]
  rfl

theorem search_stored : search hashFunction stored stored.dir [107] = some [97, 98] := by
  decide +kernel

/-- A reversing `rmw` overtaken by an `update`: its CAS fails, and its block is used again. -/
def overtaken : List Action :=
  [.rmw 0 List.reverse, .step 0, .step 0, .step 0, .write 0 128,
    .update 1 [99, 100] 192, .step 1, .step 1, .step 1, .step 1,
    .step 0, .step 0, .step 0, .step 0, .write 0 128, .step 0]

theorem stores_overtaken : ∀ a ∈ overtaken, Stores [107] a := by
  simp only [overtaken, forall_mem_cons, Stores, true_and]
  refine ⟨fun value hv => ?_, by decide, by simp⟩
  simpa [Storable, kvBlockLen] using hv

theorem noLostUpdate_overtaken :
    ∃ s : State, (s.calls 0).pc = .ok ∧ (s.calls 1).pc = .ok ∧ s.log.length = 2 ∧
      NoLostUpdate hashFunction [107] [97, 98] s := by
  have hsteps : (system hashFunction [107] stored).AllSteps Fresh startState overtaken := by
    decide +kernel
  obtain ⟨s, -, h, h0, h1, hlen⟩ := (system hashFunction [107] stored).exists_runWith _
    (fun s => (s.calls 0).pc = .ok ∧ (s.calls 1).pc = .ok ∧ s.log.length = 2) start_startState _
    (hsteps.and_forall stores_overtaken) (by decide +kernel)
  exact ⟨s, h0, h1, hlen, noLostUpdate_of_rely (wellFormed_storing [97, 98] 64) search_stored
    (by decide) h⟩

/-- An `update` with a NUL inside its value: `strncpy` puts zeros in place of what follows. -/
def nulUpdate : List Action :=
  [.update 0 [97, 0, 98] 128, .step 0, .step 0, .step 0, .step 0]

theorem not_noLostUpdate_nulUpdate :
    WellFormed hashFunction stored ∧ search hashFunction stored stored.dir [107] = some [97, 98] ∧
      ∃ s, (system hashFunction [107] stored).RunWith Fresh s ∧ (s.calls 0).pc = .ok ∧
        ¬ NoLostUpdate hashFunction [107] [97, 98] s := by
  refine ⟨wellFormed_storing [97, 98] 64, search_stored, ?_⟩
  obtain ⟨s, -, h⟩ := (system hashFunction [107] stored).exists_runWith Fresh (fun s =>
    (s.calls 0).pc = .ok ∧
      search hashFunction s.heap.mem s.heap.mem.dir [107] ≠ some (applied s.log [97, 98]))
    start_startState nulUpdate (by decide +kernel) (by decide +kernel)
  exact ⟨s, h⟩

end Fusa.Table.Edits

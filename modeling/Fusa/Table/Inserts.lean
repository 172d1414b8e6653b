import Fusa.Lib.Transition
import Fusa.Table.Content
import Fusa.Table.Insert

/-! Any number of concurrent calls of `insert` on a table that is not resized. -/
namespace Fusa.Table.Inserts
open Transition Function Option

structure State where
  mem : Memory
  calls : ℕ → InsertCall

/-- A call is made, and `write_block` puts its block at `pointer`; or it takes its next step. -/
inductive Action
  | call (c : ℕ) (key value : Bytes) (pointer : ℕ)
  | step (c : ℕ)

variable (hash : Bytes → Hashes)

def next (s : State) : Action → Option State
  | .call c key value pointer =>
    if (s.calls c).pc = .idle ∧ pointer ≠ 0 ∧ s.mem.block pointer = none then
      some
        { mem := s.mem.writeBlock key value pointer
          calls := update s.calls c
            { s.calls c with
              key := key, value := value, newSlot := blockSlot hash key value pointer
              pc := .find0 } }
    else none
  | .step c =>
    (insertStep hash s.mem (s.calls c)).map fun r =>
      { mem := r.1, calls := update s.calls c r.2 }

/-- What a step of the system does: a call starts, or takes one of its steps. -/
inductive Step (s : State) : Action → State → Prop
  | call {c : ℕ} {key value : Bytes} {pointer : ℕ} (hpc : (s.calls c).pc = .idle)
      (hp : pointer ≠ 0) (hb : s.mem.block pointer = none) :
      Step s (.call c key value pointer)
        { mem := s.mem.writeBlock key value pointer
          calls := update s.calls c
            { s.calls c with
              key := key, value := value, newSlot := blockSlot hash key value pointer
              pc := .find0 } }
  | step {c : ℕ} {m' : Memory} {c' : InsertCall} (h : InsertStep hash s.mem (s.calls c) m' c') :
      Step s (.step c) { mem := m', calls := update s.calls c c' }

def system (m₀ : Memory) : System State Action where
  start s := s.mem = m₀ ∧ ∀ c, (s.calls c).pc = .idle ∧ (s.calls c).dirCache = m₀.dir
  next := next hash

def KeysIn (K : Bytes → Prop) (_ : State) : Action → Prop
  | .call _ key _ _ => K key
  | .step _ => True

def AtPc (m : Memory) (c : InsertCall) : Prop :=
  match c.pc with
  | .idle | .find0 | .full => True
  | .find1 => c.base = (m.dir.entry (hash c.key)).pointer
  | .claim q =>
    c.base = (m.dir.entry (hash c.key)).pointer ∧ q < 28 ∧ c.slotAddr = c.addr hash q ∧
      c.buf.slot q = .null
  | .check0 | .returned => Candidate hash m.dir c.key c.slotAddr
  | .check1 =>
    Candidate hash m.dir c.key c.slotAddr ∧ c.base = (m.dir.entry (hash c.key)).pointer ∧
      (∀ i, i % 2 = 0 → c.buf.header i = m.header (bucketAddr c.base (bucketNo (hash c.key) i))) ∧
      ∀ q, posGroup q = 0 → c.buf.slot q ≠ .null → ∃ b, m.block (c.buf.slot q).pointer = some b
  | .delete l =>
    Candidate hash m.dir c.key c.slotAddr ∧ c.base = (m.dir.entry (hash c.key)).pointer ∧
      l ≠ [] ∧ ∀ q ∈ l, q < 28 ∧ c.accepts hash m q
  | .moveDir | .move0 | .move1 | .moveClaim _ | .moveClear => False

structure CallInv (m : Memory) (c : InsertCall) : Prop where
  dirCache : c.dirCache = m.dir
  block : c.pc ≠ .idle → m.block c.newSlot.pointer = some ⟨c.key, c.value⟩
  newSlot_ne : c.pc ≠ .idle → c.newSlot ≠ .null
  newSlot_fp : c.pc ≠ .idle → c.newSlot.fp = getFingerprint (hash c.key).h0
  atPc : AtPc hash m c

structure Inv (m₀ : Memory) (s : State) : Prop where
  wellFormed : WellFormed hash s.mem
  dir : s.mem.dir = m₀.dir
  kept : ∀ p b, m₀.block p = some b → s.mem.block p = some b
  call : ∀ c, CallInv hash s.mem (s.calls c)
  pointer_ne : ∀ c d, c ≠ d → (s.calls c).pc ≠ .idle → (s.calls d).pc ≠ .idle →
    (s.calls c).newSlot.pointer ≠ (s.calls d).newSlot.pointer

variable {hash} {m m' : Memory} {c c' : InsertCall}

theorem ne_idle_of_claimed (h : c.pc.claimed) : c.pc ≠ .idle := by
  intro hpc
  simp [hpc, InsertPc.claimed] at h

theorem CallInv.own (h : CallInv hash m c) (hc : c.pc.claimed) :
    Candidate hash m.dir c.key c.slotAddr := by
  have ha := h.atPc
  cases hpc : c.pc with
  | idle | find0 | find1 | full | claim => simp [hpc, InsertPc.claimed] at hc
  | check0 | returned => simpa [AtPc, hpc] using ha
  | check1 | delete =>
    rw [AtPc, hpc] at ha
    exact ha.1
  | moveDir | move0 | move1 | moveClaim | moveClear => simp [AtPc, hpc] at ha

theorem CallInv.entry_eq (h : CallInv hash m c) : c.entry hash = m.dir.entry (hash c.key) := by
  rw [InsertCall.entry, h.dirCache]

theorem CallInv.of_le (h : CallInv hash m c) (hd : m'.dir = m.dir) (hh : m'.header = m.header)
    (hb : ∀ p b, m.block p = some b → m'.block p = some b) : CallInv hash m' c := by
  refine ⟨h.dirCache.trans hd.symm, fun hc => hb _ _ (h.block hc), h.newSlot_ne, h.newSlot_fp, ?_⟩
  have ha := h.atPc
  unfold AtPc at ha ⊢
  rw [hd]
  cases hpc : c.pc with
  | idle | find0 | full => trivial
  | find1 | claim | check0 | returned => simpa only [hpc] using ha
  | moveDir | move0 | move1 | moveClaim | moveClear => simp [hpc] at ha
  | check1 =>
    simp only [hpc, hh] at ha ⊢
    obtain ⟨hown, hbase, hheader, hseen⟩ := ha
    refine ⟨hown, hbase, hheader, fun q hq hne => ?_⟩
    obtain ⟨b, hbq⟩ := hseen q hq hne
    exact ⟨b, hb _ _ hbq⟩
  | delete l =>
    simp only [hpc] at ha ⊢
    obtain ⟨hown, hbase, hl, hacc⟩ := ha
    refine ⟨hown, hbase, hl, fun q hq => ⟨(hacc q hq).1, ?_⟩⟩
    have h2 := (hacc q hq).2
    simp only [InsertCall.accepts, decide_eq_true_eq, isSome_iff_exists,
      bind_eq_some_iff] at h2 ⊢
    refine ⟨h2.1, h2.2.1, h2.2.2.imp id ?_⟩
    rintro ⟨v, b, hbq, hv⟩
    exact ⟨v, b, hb _ _ hbq, hv⟩

theorem Buf.setSlot_self {b : Buf} {q : ℕ} : b.setSlot q (b.slot q) = b := by
  simp [Buf.setSlot]

theorem check_eq (hw : WellFormed hash m) (h : CallInv hash m c) (hpc : c.pc = .check1) :
    { c with buf := c.read hash m 1 }.check hash m =
      if ({ c with buf := c.read hash m 1 }.duplicates hash m).hits.length ≤ 1 then .returned
      else .delete ({ c with buf := c.read hash m 1 }.duplicates hash m).rest := by
  have ha := h.atPc
  simp only [AtPc, hpc] at ha
  obtain ⟨-, hbase, hheader, -⟩ := ha
  have hst : stale (hash c.key) (c.entry hash)
      ((c.read hash m 1).header c.slotBucket) = false := by
    have hh : (c.read hash m 1).header c.slotBucket =
        m.header (bucketAddr (m.dir.entry (hash c.key)).pointer
          (bucketNo (hash c.key) c.slotBucket)) := by
      rw [InsertCall.read, readGroup, h.entry_eq]
      dsimp only
      split
      · rfl
      · rw [hheader _ (by omega), hbase]
    rw [hh, h.entry_eq]
    exact hw.not_stale c.key c.slotBucket
  unfold InsertCall.check
  rw [if_neg]
  simpa [InsertCall.entry] using hst

section
variable (h : InsertStep hash m c m' c')
include h

theorem step_frame : m'.dir = m.dir ∧ m'.header = m.header ∧ m'.block = m.block := by
  cases h <;> exact ⟨rfl, rfl, rfl⟩

theorem step_args : c'.key = c.key ∧ c'.value = c.value ∧ c'.newSlot = c.newSlot := by
  cases h <;> exact ⟨rfl, rfl, rfl⟩

theorem step_pc_ne_idle : c.pc ≠ .idle := by
  cases h <;> simp_all
  rename_i hpc
  rcases hpc with hpc | hpc <;> simp [hpc]

end

section
variable (hw : WellFormed hash m) (h : CallInv hash m c) (hs : InsertStep hash m c m' c')
include hw h hs

theorem CallInv.atPc_step : AtPc hash m' c' := by
  have ha := h.atPc
  have he : (c.entry hash).pointer = (m.dir.entry (hash c.key)).pointer := by rw [h.entry_eq]
  cases hs with
  | find0 hpc => exact he
  | full hpc => trivial
  | pick hpc hq hs =>
    simp only [AtPc, hpc] at ha
    exact ⟨ha, hq, rfl, hs⟩
  | claim hpc hm =>
    simp only [AtPc, hpc] at ha
    obtain ⟨hbase, hq, haddr, -⟩ := ha
    exact ⟨_, hq, by rw [haddr, InsertCall.addr, hbase]⟩
  | lost hpc hm => trivial
  | check0 hpc =>
    refine ⟨h.own (hpc ▸ rfl), he, fun i hi => ?_, fun q hq hne => ?_⟩
    · exact if_pos hi
    · have hslot : (c.read hash m 0).slot q =
          m.slot (posAddr (c.entry hash).pointer (hash c.key) q) := if_pos hq
      simp only [hslot] at hne ⊢
      obtain ⟨b, hb, -⟩ := hw.stored _ hne
      exact ⟨b, hb⟩
  | check1 hpc =>
    have hown := h.own (hpc ▸ rfl)
    simp only [AtPc, hpc] at ha
    rw [check_eq hw h hpc]
    split
    · exact hown
    · rename_i hlen
      refine ⟨hown, ha.2.1, fun hnil => hlen ?_, fun q hq => ?_⟩
      · exact (LeastScan.rest_eq_nil_iff nodup_positions).mp hnil
      · exact ⟨mem_positions.mp (LeastScan.mem_of_mem_rest hq).1, (LeastScan.mem_of_mem_rest hq).2⟩
  | moveWait hpc | moveDir hpc _ | move0 hpc | move1 hpc _ _ | moveClaim hpc _ | moveLost hpc _
    | moveClear hpc => simp [AtPc, hpc] at ha
  | clear hpc hm =>
    simp only [AtPc, hpc] at ha
    obtain ⟨hown, hbase, -, hacc⟩ := ha
    rename_i q l
    rw [hm, Buf.setSlot_self]
    by_cases hl : l = []
    · simp only [AtPc, if_pos hl]
      exact hown
    · simp only [AtPc, if_neg hl]
      exact ⟨hown, hbase, hl, fun r hr => hacc r (List.mem_cons_of_mem q hr)⟩
  | changed hpc hm => exact h.own (hpc ▸ rfl)

theorem CallInv.step : CallInv hash m' c' := by
  obtain ⟨hd, -, hb⟩ := step_frame hs
  obtain ⟨hkey, hvalue, hslot⟩ := step_args hs
  have hne := step_pc_ne_idle hs
  have hdir : c'.dirCache = c.dirCache := by
    have ha := h.atPc
    cases hs with
    | moveDir hpc _ => simp [AtPc, hpc] at ha
    | _ => rfl
  refine ⟨by rw [hdir, hd, h.dirCache], fun _ => ?_, fun _ => ?_, fun _ => ?_, h.atPc_step hw hs⟩
  · rw [hslot, hkey, hvalue, hb, h.block hne]
  · rw [hslot]
    exact h.newSlot_ne hne
  · rw [hslot, hkey]
    exact h.newSlot_fp hne

end

theorem CallInv.holds (h : CallInv hash m c) (hne : c.pc ≠ .idle) {a : ℕ}
    (hm : m.slot a = c.newSlot) : m.Holds a ⟨c.key, c.value⟩ :=
  ⟨hm ▸ h.newSlot_ne hne, by rw [hm, h.block hne]⟩

theorem wellFormed_step (hw : WellFormed hash m) (h : CallInv hash m c)
    (hs : InsertStep hash m c m' c') : WellFormed hash m' := by
  cases hs with
  | claim hpc hm =>
    have ha := h.atPc
    simp only [AtPc, hpc] at ha
    refine hw.setSlot fun _ => ⟨_, h.block (by simp [hpc]), h.newSlot_fp (by simp [hpc]), ?_⟩
    exact ⟨_, ha.2.1, by rw [ha.2.2.1, InsertCall.addr, ha.1]⟩
  | clear hpc hm => exact hw.setSlot fun hne => absurd rfl hne
  | moveClaim hpc _ | moveClear hpc =>
    have ha := h.atPc
    simp [AtPc, hpc] at ha
  | _ => exact hw

theorem CallInv.holds_step (h : CallInv hash m c) (hs : InsertStep hash m c m' c') {a : ℕ}
    {b : Block} (hb : m'.Holds a b) : m.Holds a b ∨ b = ⟨c.key, c.value⟩ := by
  have hupdate : ∀ x slot, { m with slot := update m.slot x slot }.Holds a b →
      m.Holds a b ∨ slot ≠ .null ∧ m.block slot.pointer = some b :=
    fun x slot hx => (holds_update.mp hx).symm.imp And.right And.right
  have hunmoved := h.atPc
  cases hs with
  | claim hpc hm =>
    refine (hupdate _ _ hb).imp id fun hx => some.inj (hx.2.symm.trans (h.block ?_))
    simp [hpc]
  | clear hpc hm => exact (hupdate _ _ hb).imp id fun hx => absurd rfl hx.1
  | moveClaim hpc _ | moveClear hpc => simp [AtPc, hpc] at hunmoved
  | _ => exact .inl hb

section
variable {m₀ : Memory} {s t : State}

theorem Inv.start (hw : WellFormed hash m₀) (h : (system hash m₀).start s) : Inv hash m₀ s := by
  obtain ⟨rfl, hc⟩ := h
  refine ⟨hw, rfl, fun _ _ hb => hb, fun c => ⟨(hc c).2, ?_, ?_, ?_, ?_⟩, ?_⟩
  iterate 3 · exact fun hne => absurd (hc c).1 hne
  · simp [AtPc, (hc c).1]
  · exact fun c _ _ hne => absurd (hc c).1 hne

theorem next_cases {a : Action} (h : (system hash m₀).next s a = some t) : Step hash s a t := by
  cases a with
  | call c key value pointer =>
    obtain ⟨hg, ⟨⟩⟩ := ite_none_right_eq_some.mp h
    exact .call hg.1 hg.2.1 hg.2.2
  | step c =>
    obtain ⟨⟨m', c'⟩, hs, rfl⟩ := map_eq_some_iff.mp h
    exact .step (insertStep_cases hs)

theorem Inv.step {a : Action} (h : Inv hash m₀ s) (hn : (system hash m₀).next s a = some t) :
    Inv hash m₀ t := by
  cases next_cases hn with
  | @call c key value pointer hpc hp hb =>
    have hkept : ∀ p b, s.mem.block p = some b →
        (s.mem.writeBlock key value pointer).block p = some b := fun p b => writeBlock_of_some hb
    -- a pointer in use has a block, so the new block lies elsewhere
    have hfresh : ∀ d, (s.calls d).pc ≠ .idle → pointer ≠ (s.calls d).newSlot.pointer := by
      rintro d hd rfl
      simp [(h.call d).block hd] at hb
    refine ⟨⟨h.wellFormed.unlocked, h.wellFormed.header, fun x hx => ?_⟩, h.dir,
      fun p b hpb => hkept p b (h.kept p b hpb), (forall_update_iff _ fun _ => CallInv hash _).mpr
        ⟨?_, fun d _ => (h.call d).of_le rfl rfl hkept⟩, fun d e hde hd he => ?_⟩
    · obtain ⟨b, hxb, hfp, hc⟩ := h.wellFormed.stored x hx
      exact ⟨b, hkept _ _ hxb, hfp, hc⟩
    · refine ⟨(h.call c).dirCache, fun _ => ?_, fun _ hnull => hp ?_, fun _ => rfl, trivial⟩
      · exact update_self ..
      · exact congrArg Slot.pointer hnull
    · by_cases hdc : d = c
      · subst hdc
        simp only [update_self, update_of_ne (Ne.symm hde)] at he ⊢
        exact hfresh e he
      · simp only [update_of_ne hdc] at hd ⊢
        by_cases hec : e = c
        · subst hec
          simp only [update_self]
          exact (hfresh d hd).symm
        · simp only [update_of_ne hec] at he ⊢
          exact h.pointer_ne d e hde hd he
  | @step c m' c' hs =>
    obtain ⟨hd, hh, hb⟩ := step_frame hs
    have hslot := (step_args hs).2.2
    refine ⟨wellFormed_step h.wellFormed (h.call c) hs, hd.trans h.dir,
      fun p b hp => hb ▸ h.kept p b hp, (forall_update_iff _ fun _ => CallInv hash m').mpr
        ⟨(h.call c).step h.wellFormed hs,
          fun d _ => (h.call d).of_le hd hh fun p b hpb => hb ▸ hpb⟩, fun d e hde hd he => ?_⟩
    · have hne := step_pc_ne_idle hs
      by_cases hdc : d = c
      · subst hdc
        simp only [update_self, update_of_ne (Ne.symm hde)] at he ⊢
        exact hslot ▸ h.pointer_ne d e hde hne he
      · simp only [update_of_ne hdc] at hd ⊢
        by_cases hec : e = c
        · subst hec
          simp only [update_self]
          exact hslot ▸ h.pointer_ne d e hde hd hne
        · simp only [update_of_ne hec] at he ⊢
          exact h.pointer_ne d e hde hd he

end

end Fusa.Table.Inserts

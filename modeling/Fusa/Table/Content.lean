import Fusa.Table.Layout

/-! What a table at rest holds, and what `search`, `update` and `remove` make of it. -/
namespace Fusa.Table
open Function Option

def Memory.Holds (m : Memory) (a : ℕ) (b : Block) : Prop :=
  m.slot a ≠ .null ∧ m.block (m.slot a).pointer = some b

def Memory.HoldsKey (m : Memory) (a : ℕ) (key : Bytes) : Prop := ∃ b, m.Holds a b ∧ b.key = key

variable {m : Memory} {a base : ℕ} {b : Block} {s : Slot} {value : Bytes}

theorem Memory.Holds.unique {b' : Block} (h : m.Holds a b) (h' : m.Holds a b') : b = b' :=
  some.inj (h.2.symm.trans h'.2)

theorem Memory.HoldsKey.unique {key key' : Bytes} (h : m.HoldsKey a key) (h' : m.HoldsKey a key') :
    key = key' := by
  obtain ⟨b, hb, rfl⟩ := h
  obtain ⟨b', hb', rfl⟩ := h'
  rw [hb.unique hb']

theorem holds_update {y : ℕ} : { m with slot := update m.slot a s }.Holds y b ↔
      (y = a ∧ s ≠ .null ∧ m.block s.pointer = some b) ∨ (y ≠ a ∧ m.Holds y b) := by
  by_cases hy : y = a
  · subst hy
    simp [Memory.Holds]
  · simp [Memory.Holds, hy]

variable (hash : Bytes → Hashes)

def Candidate (d : Directory) (key : Bytes) (a : ℕ) : Prop :=
  ∃ q < 28, a = posAddr (d.entry (hash key)).pointer (hash key) q

/-- At rest: buckets carry depth and suffix, and every slot in use is in a bucket of its key. -/
structure WellFormed (m : Memory) : Prop where
  unlocked : m.dir.locked = false
  header : ∀ key i,
    m.header (bucketAddr (m.dir.entry (hash key)).pointer (bucketNo (hash key) i)) =
      ⟨(m.dir.entry (hash key)).localDepth,
        (hash key).h0.toNat % 2 ^ (m.dir.entry (hash key)).localDepth⟩
  stored : ∀ a, m.slot a ≠ .null → ∃ b, m.block (m.slot a).pointer = some b ∧
    (m.slot a).fp = getFingerprint (hash b.key).h0 ∧ Candidate hash m.dir b.key a

def setup : Memory where
  dir := ⟨10, false, fun i => ⟨0, 10, bucketBytes * kTotalBuckets * (i + 1)⟩⟩
  header a := ⟨10, a / (bucketBytes * kTotalBuckets) - 1⟩
  slot _ := .null
  block _ := none

theorem header_setup {b : ℕ} (hb : b < kTotalBuckets) (n : ℕ) :
    setup.header (bucketAddr (bucketBytes * kTotalBuckets * (n + 1)) b) = ⟨10, n⟩ := by
  simp only [setup, bucketAddr, Header.mk.injEq, true_and]
  have hlt : bucketBytes * b < bucketBytes * kTotalBuckets :=
    Nat.mul_lt_mul_of_pos_left hb (by decide)
  rw [Nat.mul_add_div (by decide), Nat.div_eq_of_lt hlt]
  omega

theorem wellFormed_setup : WellFormed hash setup :=
  ⟨rfl, fun key i => header_setup (bucketNo_lt (hash key) i) _, fun _ ha => absurd rfl ha⟩

def storing (key value : Bytes) (pointer : ℕ) : Memory where
  dir := setup.dir
  header := setup.header
  slot := Function.update setup.slot
    (posAddr (setup.dir.entry (hash key)).pointer (hash key) 0) (blockSlot hash key value pointer)
  block := Function.update setup.block pointer (some ⟨key, value⟩)

variable {hash} {key : Bytes}

theorem eq_of_slot_storing {pointer : ℕ} (h : (storing hash key value pointer).slot a ≠ .null) :
    a = posAddr (setup.dir.entry (hash key)).pointer (hash key) 0 ∧
      (storing hash key value pointer).slot a = blockSlot hash key value pointer ∧
      (storing hash key value pointer).block
        ((storing hash key value pointer).slot a).pointer = some ⟨key, value⟩ := by
  have ha : a = posAddr (setup.dir.entry (hash key)).pointer (hash key) 0 := by
    by_contra hne
    exact h (update_of_ne hne _ _)
  subst ha
  simp [storing, blockSlot]

theorem wellFormed_storing (value : Bytes) (pointer : ℕ) :
    WellFormed hash (storing hash key value pointer) := by
  refine ⟨rfl, (wellFormed_setup hash).header, fun a ha => ?_⟩
  obtain ⟨hpos, hslot, hblock⟩ := eq_of_slot_storing ha
  refine ⟨_, hblock, ?_, 0, by omega, hpos⟩
  rw [hslot]
  rfl

theorem WellFormed.not_stale (h : WellFormed hash m) (key : Bytes) (i : ℕ) :
    m.staleAt hash (m.dir.entry (hash key)) key i = false := by
  simp [stale, h.header]

theorem WellFormed.setSlot (h : WellFormed hash m)
    (hs : s ≠ .null → ∃ b, m.block s.pointer = some b ∧ s.fp = getFingerprint (hash b.key).h0 ∧
      Candidate hash m.dir b.key a) : WellFormed hash { m with slot := update m.slot a s } := by
  refine ⟨h.unlocked, h.header, fun x hx => ?_⟩
  by_cases hxa : x = a
  · subst hxa
    simp only [update_self] at hx ⊢
    exact hs hx
  · simp only [update_of_ne hxa] at hx ⊢
    exact h.stored x hx

theorem exists_readBlock (h : matchesKey m.block (hash key) key (m.slot a) = true) :
    ∃ b, m.Holds a b ∧ (readBlock key b).isSome := by
  simp only [matchesKey, decide_eq_true_eq] at h
  obtain ⟨v, hv⟩ := isSome_iff_exists.mp h.2.2
  obtain ⟨b, hb, hr⟩ := bind_eq_some_iff.mp hv
  exact ⟨b, ⟨h.1, hb⟩, by rw [hr]; rfl⟩

theorem searchAt_eq_some (h : searchAt hash m base key = some value) :
    ∃ q < 28, ∃ b, m.Holds (posAddr base (hash key) q) b ∧ readBlock key b = some value := by
  obtain ⟨q, hq, hv⟩ := bind_eq_some_iff.mp h
  have hmem := mem_positions.mp (List.mem_of_find?_eq_some hq)
  have hmatch := List.find?_some hq
  obtain ⟨b, hb, hr⟩ := bind_eq_some_iff.mp hv
  simp only [matchesKey, decide_eq_true_eq] at hmatch
  exact ⟨q, hmem, b, ⟨hmatch.1, hb⟩, hr⟩

theorem searchAt_isSome {q : ℕ} (hq : q < 28) (hb : m.Holds (posAddr base (hash key) q) b)
    (hfp : (m.slot (posAddr base (hash key) q)).fp = getFingerprint (hash key).h0)
    (hr : (readBlock key b).isSome) : (searchAt hash m base key).isSome := by
  have hmatch : matchesKey m.block (hash key) key (m.slot (posAddr base (hash key) q)) = true := by
    simp [matchesKey, hb.1, hfp, hb.2, hr]
  unfold searchAt
  dsimp only
  cases hf : findKey m.block (hash key) key fun q => m.slot (posAddr base (hash key) q) with
  | none =>
    have := List.find?_eq_none.mp hf q (mem_positions.mpr hq)
    simp [hmatch] at this
  | some r =>
    have hr' := List.find?_some hf
    simp only [matchesKey, decide_eq_true_eq] at hr'
    exact hr'.2.2

/-- With a fresh directory the second pass of `search` looks where the first did. -/
theorem search_eq_searchAt :
    search hash m m.dir key = searchAt hash m (m.dir.entry (hash key)).pointer key := by
  unfold search
  dsimp only
  cases hs : searchAt hash m (m.dir.entry (hash key)).pointer key with
  | some value => rfl
  | none => simp

theorem WellFormed.search_isSome (h : WellFormed hash m) (hk : m.HoldsKey a key) :
    (search hash m m.dir key).isSome := by
  obtain ⟨b, hb, rfl⟩ := hk
  obtain ⟨b', hb', hfp, q, hq, ha⟩ := h.stored a hb.1
  obtain rfl := hb.unique ⟨hb.1, hb'⟩
  subst ha
  rw [search_eq_searchAt]
  exact searchAt_isSome hq hb hfp (by rw [readBlock_self]; rfl)

inductive ModifyPc
  | idle
  | read0
  | read1
  | checkDir
  | checkEntry
  | cas (q : ℕ)
  | ok
  | enoent
deriving DecidableEq, Repr

/-- Arguments, locals and buffers of a call; without a value it is a `remove`. -/
structure ModifyCall where
  pc : ModifyPc
  key : Bytes
  value : Option Bytes
  newSlot : Slot
  dirCache : Directory
  base : ℕ
  buf : Buf
  entryIdx : ℕ

section
variable (hash : Bytes → Hashes)

namespace ModifyCall

variable (c : ModifyCall)

/-- `update`, once `write_block` has put its block at `pointer`. -/
def update (key value : Bytes) (pointer : ℕ) : ModifyCall :=
  { c with pc := .read0, key := key, value := some value
           newSlot := blockSlot hash key value pointer }

def remove (key : Bytes) : ModifyCall :=
  { c with pc := .read0, key := key, value := none, newSlot := .null }

def entry : SubTableEntry := c.dirCache.entry (hash c.key)

def addr (q : ℕ) : ℕ := posAddr c.base (hash c.key) q

def read (m : Memory) (r : ℕ) : Buf := readGroup m (c.entry hash).pointer (hash c.key) r c.buf

/-- What a call does once `read_bucket` has read its buckets. -/
def found (m : Memory) : ModifyPc :=
  if (List.range 4).any fun i => stale (hash c.key) (c.entry hash) (c.buf.header i) then .checkDir
  else
    match findKey m.block (hash c.key) c.key c.buf.slot with
    | none => .enoent
    | some q => .cas q

end ModifyCall

def modifyStep (m : Memory) (c : ModifyCall) : Option (Memory × ModifyCall) :=
  match c.pc with
  | .idle | .ok | .enoent => none
  | .read0 =>
    some (m, { c with base := (c.entry hash).pointer, entryIdx := c.dirCache.index (hash c.key)
                      buf := c.read hash m 0, pc := .read1 })
  | .read1 =>
    let c := { c with buf := c.read hash m 1 }
    some (m, { c with pc := c.found hash m })
  | .checkDir =>
    some (m, if m.dir.locked then c else { c with dirCache := m.dir, pc := .checkEntry })
  | .checkEntry =>
    let e := m.dir.subtables c.entryIdx
    some (m, { c with dirCache := c.dirCache.setEntry c.entryIdx e
                      pc := if e.lock ≠ 0 then .checkEntry else .read0 })
  | .cas q =>
    let old := m.slot (c.addr hash q)
    some (m.casSlot (c.addr hash q) (c.buf.slot q) c.newSlot,
      { c with buf := c.buf.setSlot q old, pc := if old = c.buf.slot q then .ok else .read0 })

inductive ModifyStep (m : Memory) (c : ModifyCall) : Memory → ModifyCall → Prop
  | read0 (hpc : c.pc = .read0) : ModifyStep m c m
      { c with base := (c.entry hash).pointer, entryIdx := c.dirCache.index (hash c.key)
               buf := c.read hash m 0, pc := .read1 }
  | read1 (hpc : c.pc = .read1) : ModifyStep m c m
      { c with buf := c.read hash m 1, pc := { c with buf := c.read hash m 1 }.found hash m }
  | checkWait (hpc : c.pc = .checkDir) : ModifyStep m c m c
  | checkDir (hpc : c.pc = .checkDir) : ModifyStep m c m
      { c with dirCache := m.dir, pc := .checkEntry }
  | checkEntry {pc : ModifyPc} (hpc : c.pc = .checkEntry) (hp : pc = .checkEntry ∨ pc = .read0) :
      ModifyStep m c m
        { c with dirCache := c.dirCache.setEntry c.entryIdx (m.dir.subtables c.entryIdx), pc := pc }
  | replaced {q : ℕ} (hpc : c.pc = .cas q) (hm : m.slot (c.addr hash q) = c.buf.slot q) :
      ModifyStep m c { m with slot := Function.update m.slot (c.addr hash q) c.newSlot }
        { c with buf := c.buf.setSlot q (m.slot (c.addr hash q)), pc := .ok }
  | lost {q : ℕ} (hpc : c.pc = .cas q) (hm : m.slot (c.addr hash q) ≠ c.buf.slot q) :
      ModifyStep m c m
        { c with buf := c.buf.setSlot q (m.slot (c.addr hash q)), pc := .read0 }

end

variable {hash : Bytes → Hashes} {m m' : Memory} {c c' : ModifyCall}

theorem ModifyCall.found_cases (c : ModifyCall) (m : Memory) :
    c.found hash m = .checkDir ∨ c.found hash m = .enoent ∨ ∃ q, c.found hash m = .cas q := by
  unfold ModifyCall.found
  split
  · exact .inl rfl
  · split
    · exact .inr (.inl rfl)
    · exact .inr (.inr ⟨_, rfl⟩)

theorem modifyStep_cases (h : modifyStep hash m c = some (m', c')) : ModifyStep hash m c m' c' := by
  unfold modifyStep at h
  generalize hpc : c.pc = pc at h
  cases pc with
  | idle | ok | enoent => cases h
  | read0 =>
    cases h
    exact .read0 hpc
  | read1 =>
    cases h
    exact .read1 hpc
  | checkDir =>
    cases h
    split
    · exact .checkWait hpc
    · exact .checkDir hpc
  | checkEntry =>
    cases h
    refine .checkEntry hpc ?_
    split
    · exact .inl rfl
    · exact .inr rfl
  | cas q =>
    cases h
    by_cases hm : m.slot (c.addr hash q) = c.buf.slot q
    · rw [casSlot_of_eq hm, if_pos hm]
      exact .replaced hpc hm
    · rw [casSlot_of_ne hm, if_neg hm]
      exact .lost hpc hm

theorem ModifyStep.quiet_or_replaced (h : ModifyStep hash m c m' c') : (m' = m ∧ c'.pc ≠ .ok) ∨
      ∃ q, c.pc = .cas q ∧ m.slot (c.addr hash q) = c.buf.slot q ∧
        m' = { m with slot := Function.update m.slot (c.addr hash q) c.newSlot } ∧
        c'.pc = .ok ∧ c'.key = c.key ∧ c'.value = c.value := by
  cases h with
  | read0 | checkDir | lost => exact .inl ⟨rfl, by simp⟩
  | checkWait hpc => exact .inl ⟨rfl, by simp [hpc]⟩
  | read1 hpc =>
    refine .inl ⟨rfl, fun hok => ?_⟩
    rcases ModifyCall.found_cases _ m with hf | hf | ⟨q, hf⟩ <;> cases hok.symm.trans hf
  | checkEntry hpc hp => exact .inl ⟨rfl, by rcases hp with rfl | rfl <;> simp⟩
  | replaced hpc hm => exact .inr ⟨_, hpc, hm, rfl, rfl, rfl, rfl⟩

end Fusa.Table

import Fusa.Table.AtRest
import Fusa.Table.ResizeRun

/-! The key `o` in the tables of `Setup`, and the resize that moves it. -/
namespace Fusa.Table

variable {x : Split} {hash : Bytes → Hashes} {K : Bytes → Prop} {alloc : ℕ → ℕ}
  {m : Memory} {r : Resizer} {map : Bytes → Option Bytes} {i j : ℕ}

theorem Splitting.counts_oldSlot (h : Splitting x hash K alloc m r map)
    (hpc : r.pc = .bucket 0) (hmove : ∀ key, K key → x.Moves hash key) (hi : i < kTotalBuckets)
    (hj : j < kAssociatedWays) (hne : r.oldSlot i j ≠ .null) :
    ∃ b, K b.key ∧ x.Counts hash m (.bucket 0) (slotAddr x.oldTable i j) b := by
  have hslots := h.slots
  rw [hpc] at hslots
  have hsn := hslots.snapshot trivial
  obtain ⟨b, hb, hK⟩ := hsn.block i j hne
  have hsl : IsSlot x.oldTable i j (slotAddr x.oldTable i j) := ⟨hi, hj, rfl⟩
  have hsame := hsn.same i j _ hsl ⟨hne, b, hb, hmove _ hK⟩
    (by simp [ResizePc.progress, Progress.cleared])
  exact ⟨b, hK, ⟨hsame ▸ hne, hsame ▸ hb⟩, .inl ⟨i, j, hsl, .inr (by simp [Progress.copied])⟩⟩

theorem Splitting.oldSlot_eq_null {key : Bytes} {b : ℕ}
    (h : Splitting x hash (· = key) alloc m r map) (hpc : r.pc = .bucket 0)
    (hmove : x.Moves hash key) (hi : i < kTotalBuckets)
    (hused : m.slot (slotAddr x.oldTable i 0) ≠ .null) (hb : b < kTotalBuckets)
    (hj : j < kAssociatedWays) (hne : (b, j) ≠ (i, 0)) : r.oldSlot b j = .null := by
  by_contra hnull
  have hslots := h.slots
  rw [hpc] at hslots
  obtain ⟨c, hck, hc⟩ := h.counts_oldSlot hpc (fun k hk => hk ▸ hmove) hb hj hnull
  obtain ⟨d, hd, hdk⟩ := hslots.allocated _ hused
  have hsl : IsSlot x.oldTable b j (slotAddr x.oldTable b j) := ⟨hb, hj, rfl⟩
  have hsl' : IsSlot x.oldTable i 0 (slotAddr x.oldTable i 0) := ⟨hi, by decide, rfl⟩
  have hd' : x.Counts hash m (.bucket 0) (slotAddr x.oldTable i 0) d :=
    ⟨⟨hused, hd⟩, .inl ⟨i, 0, hsl', .inr (by simp [Progress.copied])⟩⟩
  have heq := hslots.represents.unique hc hd' (hck.trans hdk.symm)
  obtain ⟨rfl, rfl⟩ := hsl.inj (heq ▸ hsl')
  exact hne rfl

def movingKey : Bytes := [111]

def newTables (_ : ℕ) : ℕ := (setupSplit 611).newTable

def startResizer : Resizer where
  pc := .start
  subtableIdx := 611
  dirCache := setup.dir
  depth := 0
  globalDepth := 0
  casBuf := (0, false)
  fixDepth := 0
  exit := .retry
  allocs := 0
  oldHeader _ := ⟨0, 0⟩
  oldSlot _ _ := .null
  newSlot _ _ := .null
  resizeSuffix := none

theorem starts_startResizer : (setupSplit 611).Starts newTables startResizer := ⟨rfl, rfl, rfl, rfl⟩

theorem prefixFree_movingKey : PrefixFree (· = movingKey) := prefixFree_single (by decide)

theorem moves_movingKey : (setupSplit 611).Moves hashFunction movingKey := by
  unfold Split.Moves
  decide +kernel

theorem member_movingKey : (setupSplit 611).Member hashFunction movingKey := by
  unfold Split.Member
  decide +kernel

/-- `resize` has read the old table, and the directory will name the new one for `o`. -/
def Poised (m : Memory) (r : Resizer) : Prop :=
  (r.pc = .bucket 0 ∧ r.exit = .finish ∧ r.resizeSuffix = none) ∧
    r.newEntry.pointer = (setupSplit 611).newTable ∧
    r.newSuffix = (hashFunction movingKey).h0.toNat % 2 ^ m.dir.globalDepth
deriving Decidable

/-- The old table's copy has `o` first in bucket 724, and the new table is empty there. -/
def Holding (m : Memory) (r : Resizer) : Prop :=
  ((r.oldHeader 724).localDepth = r.depth ∧ r.oldSlot 724 0 ≠ .null ∧
      movesTo hashFunction m.block r.depth r.newSuffix (r.oldSlot 724 0) = true) ∧
    r.newSlot 724 0 = .null ∧ r.oldEntry.pointer = (setupSplit 611).oldTable ∧
    m.slot (slotAddr (setupSplit 611).newTable 724 0) = .null
deriving Decidable

theorem Poised.ready (h : Poised m r) : Ready r := ⟨h.1.1, h.1.2.1, h.1.2.2⟩

theorem Poised.entry_unlocked (h : Poised m r) :
    ((r.unlocked m.dir).entry (hashFunction movingKey)).pointer = (setupSplit 611).newTable := by
  change ((r.unlocked m.dir).subtables
    ((hashFunction movingKey).h0.toNat % 2 ^ m.dir.globalDepth)).pointer = _
  rw [← h.2.2, Resizer.unlocked_newSuffix, ← h.2.1]

/-- The rest of the resize leaves the copy of `o` in the table that the directory then names. -/
theorem Poised.completes (h : Poised m r) (ho : Holding m r)
    (hs : ∀ b < kTotalBuckets, ∀ j < kAssociatedWays, (b, j) ≠ (724, 0) → r.oldSlot b j = .null) :
    ∃ m' r', Runs hashFunction newTables (m, r) (m', r') ∧ r'.pc = .returned ∧ m'.block = m.block ∧
      (m'.dir.entry (hashFunction movingKey)).pointer = (setupSplit 611).newTable ∧
      m'.slot (slotAddr (setupSplit 611).newTable 724 0) = r.oldSlot 724 0 := by
  obtain ⟨⟨hd, hne, hmove⟩, hbuf, hold, hnull⟩ := ho
  have hnew := h.2.1
  have haddr : slotAddr r.newEntry.pointer 724 0 ≠ slotAddr r.oldEntry.pointer 724 0 := by
    rw [hnew, hold]
    decide +kernel
  have hskip : ¬ Skips hashFunction m.block r 724 0 := by
    rintro (h | h)
    · exact hne h
    · exact absurd (hmove.symm.trans h) (by decide)
  obtain ⟨m', r', hruns, hpc', hb, hdir, hS⟩ := h.ready.runs (i := 724)
    (fun _ => ⟨hd, hskip, hbuf, by rw [hnew]; exact hnull, haddr⟩) hs
  rw [if_pos (by decide), hnew] at hS
  exact ⟨m', r', hruns, hpc', hb, hdir ▸ h.entry_unlocked, hS⟩

end Fusa.Table

import Fusa.Table.Content
import Fusa.Table.Resize

/-! The slots of a subtable while `move_bucket` splits it. -/
namespace Fusa.Table
open Function

def Apart (p q : ℕ) : Prop :=
  p + bucketBytes * kTotalBuckets ≤ q ∨ q + bucketBytes * kTotalBuckets ≤ p
deriving Decidable

/-- `a` is the address of slot `j` in bucket `i` of the subtable at `base`. -/
structure IsSlot (base i j a : ℕ) : Prop where
  bucket_lt : i < kTotalBuckets
  slot_lt : j < kAssociatedWays
  eq : a = slotAddr base i j

variable {base i j i' j' a : ℕ}

theorem IsSlot.inj (h : IsSlot base i j a) (h' : IsSlot base i' j' a) : i = i' ∧ j = j' :=
  slotAddr_inj h.slot_lt h'.slot_lt (h.eq.symm.trans h'.eq)

theorem IsSlot.bounds (h : IsSlot base i j a) :
    base ≤ a ∧ a < base + bucketBytes * kTotalBuckets := by
  have h1 := h.bucket_lt
  have h2 := h.slot_lt
  have h3 := h.eq
  simp only [slotAddr, bucketAddr, bucketBytes, kAssociatedWays] at h2 h3 ⊢
  omega

theorem Apart.ne {p q : ℕ} (h : Apart p q) (hp : IsSlot p i j a) (hq : IsSlot q i' j' a) :
    False := by
  have h1 := hp.bounds
  have h2 := hq.bounds
  unfold Apart at h
  omega

/-- A subtable of the directory `dir` at rest, and the table that takes half of its keys. -/
structure Split where
  dir : Directory
  idx : ℕ
  newTable : ℕ

namespace Split
variable (x : Split) (hash : Bytes → Hashes)

def depth : ℕ := (x.dir.subtables x.idx).localDepth

def oldTable : ℕ := (x.dir.subtables x.idx).pointer

def oldSuffix : ℕ := x.idx % 2 ^ x.depth

def newSuffix : ℕ := x.oldSuffix + 2 ^ x.depth

def Member (key : Bytes) : Prop := (hash key).h0.toNat % 2 ^ x.depth = x.oldSuffix

/-- The key belongs to the new table after the split. -/
def Moves (key : Bytes) : Prop := (hash key).h0.toNat % 2 ^ (x.depth + 1) = x.newSuffix

/-- The table in which the split leaves the keys and the directory entries with suffix `n`. -/
def tableOf (n : ℕ) : ℕ :=
  if n % 2 ^ (x.depth + 1) = x.newSuffix then x.newTable else x.oldTable

end Split

/-- Keys that `read_block` tells apart. -/
structure PrefixFree (K : Bytes → Prop) : Prop where
  nulFree : ∀ k, K k → 0 ∉ k
  eq_of_begins : ∀ k k', K k → K k' → k <+: k' → k = k'

inductive Progress
  | before
  | bucket (i : ℕ)
  | copy (i j n : ℕ) (l : List (ℕ × ℕ))
  | clear (i : ℕ) (l : List (ℕ × ℕ))
  | lost
  | after
deriving DecidableEq

namespace Progress

def active : Progress → Prop
  | .before | .after => False
  | _ => True

def copied : Progress → ℕ → ℕ → Prop
  | .before, _, _ | .lost, _, _ => False
  | .bucket k, i, _ => i < k
  | .copy k j₀ _ _, i, j => i < k ∨ i = k ∧ j < j₀
  | .clear k _, i, _ => i ≤ k
  | .after, _, _ => True

def cleared : Progress → ℕ → ℕ → Prop
  | .before, _, _ | .lost, _, _ => False
  | .bucket k, i, _ => i < k
  | .copy k _ _ _, i, _ => i < k
  | .clear k l, i, j => i < k ∨ i = k ∧ j ∉ l.map Prod.fst
  | .after, _, _ => True

def unused : Progress → ℕ → ℕ → Prop
  | .before, _, _ | .lost, _, _ => True
  | .bucket k, i, _ => k ≤ i
  | .copy k _ _ l, i, n => k < i ∨ i = k ∧ l.length ≤ n
  | .clear k _, i, _ => k < i
  | .after, _, _ => False

/-- The pairs in `l` are the slots that move, each once; the search has passed only slots of earlier
copies, and no slot is found empty. -/
def Ok (moving : ℕ → ℕ → Prop) : Progress → Prop
  | .bucket i => i ≤ kTotalBuckets
  | .copy i j n l =>
    i < kTotalBuckets ∧ j ≤ kAssociatedWays ∧ l.length ≤ j ∧ n ≤ l.length ∧ (l.map Prod.fst).Nodup ∧
      (∀ p ∈ l, p.1 < j ∧ moving i p.1) ∧ ∀ j' < j, moving i j' → j' ∈ l.map Prod.fst
  | .clear i l =>
    i < kTotalBuckets ∧ (l.map Prod.fst).Nodup ∧ ∀ p ∈ l, p.1 < kAssociatedWays ∧ moving i p.1
  | .lost => False
  | .before | .after => True

end Progress

def ResizePc.progress : ResizePc → Progress
  | .writeNew | .writeOldEntry | .writeNewEntry | .fixOld _ | .fixNew _ => .bucket 0
  | .bucket i => .bucket i
  | .copy i j n l => .copy i j n l
  | .clear i l => .clear i l
  | .undo .. => .lost
  | .unlockOld | .unlockNew => .bucket kTotalBuckets
  | .returned => .after
  | _ => .before

section
variable (x : Split) (hash : Bytes → Hashes) (K : Bytes → Prop)

/-- The slots that count for a key: the old ones unless it has moved, and all new ones. -/
def Split.Here (p : Progress) (a : ℕ) (key : Bytes) : Prop :=
  (∃ i j, IsSlot x.oldTable i j a ∧ (¬ x.Moves hash key ∨ ¬ p.copied i j)) ∨
    ∃ i j, IsSlot x.newTable i j a

def Split.Counts (m : Memory) (p : Progress) (a : ℕ) (b : Block) : Prop :=
  m.Holds a b ∧ x.Here hash p a b.key

def Split.Moving (block : ℕ → Option Block) (s : Slot) : Prop :=
  s ≠ .null ∧ ∃ b, block s.pointer = some b ∧ x.Moves hash b.key

/-- The snapshot `old` of the old table against the memory, and the buffer `new`. -/
structure Snapshot (m : Memory) (p : Progress) (old new : ℕ → ℕ → Slot) : Prop where
  block : ∀ i j, old i j ≠ .null → ∃ b, m.block (old i j).pointer = some b ∧ K b.key
  same : ∀ i j a, IsSlot x.oldTable i j a → x.Moving hash m.block (old i j) → ¬ p.cleared i j →
    m.slot a = old i j
  gone : ∀ i j a, IsSlot x.oldTable i j a → x.Moving hash m.block (old i j) → p.cleared i j →
    ¬ x.Moving hash m.block (m.slot a)
  seen : ∀ i j a b, IsSlot x.oldTable i j a → m.Holds a b → x.Moves hash b.key →
    old i j = m.slot a
  buffer : ∀ i n, p.unused i n → new i n = .null
  ok : p.Ok fun i j => x.Moving hash m.block (old i j)

/-- The slots of both tables, which together represent `map`. -/
structure Slots (m : Memory) (p : Progress) (old new : ℕ → ℕ → Slot)
    (map : Bytes → Option Bytes) : Prop where
  allocated : ∀ a, m.slot a ≠ .null → ∃ b, m.block (m.slot a).pointer = some b ∧ K b.key
  placed : ∀ i j a b, IsSlot x.oldTable i j a ∨ IsSlot x.newTable i j a → m.Holds a b →
    (∃ k < 4, bucketNo (hash b.key) k = i) ∧ (m.slot a).fp = getFingerprint (hash b.key).h0 ∧
      x.Member hash b.key
  moved : ∀ i j a b, IsSlot x.newTable i j a → m.Holds a b → x.Moves hash b.key
  located : ∀ a b, m.Holds a b → x.Member hash b.key →
    ∃ i j, IsSlot x.oldTable i j a ∨ IsSlot x.newTable i j a
  represents : CellMap.Represents Block.key Block.value (x.Counts hash m p) map
  unused : ∀ i n a, IsSlot x.newTable i n a → p.unused i n → m.slot a = .null
  snapshot : p.active → Snapshot x hash K m p old new

end

variable {x : Split} {hash : Bytes → Hashes} {K : Bytes → Prop} {m m' : Memory} {p p' : Progress}
  {old new new' : ℕ → ℕ → Slot} {map : Bytes → Option Bytes} {n : ℕ} {l : List (ℕ × ℕ)}

theorem Split.Moving.of_holds {b : Block} (hb : m.Holds a b) (hm : x.Moves hash b.key) :
    x.Moving hash m.block (m.slot a) := ⟨hb.1, b, hb.2, hm⟩

theorem Slots.advance (h : Slots x hash K m p old new map) (ha : p.active)
    (hmove : ∀ i < kTotalBuckets, ∀ j < kAssociatedWays, x.Moving hash m.block (old i j) →
      (p'.copied i j ↔ p.copied i j) ∧ (p'.cleared i j ↔ p.cleared i j))
    (hun : ∀ i n, p'.unused i n → p.unused i n ∧ new' i n = .null)
    (hok : p'.Ok fun i j => x.Moving hash m.block (old i j)) :
    Slots x hash K m p' old new' map := by
  have hs := h.snapshot ha
  refine ⟨h.allocated, h.placed, h.moved, h.located, h.represents.congr fun a b => ?_,
    fun i n a ha hu => h.unused i n a ha (hun i n hu).1, fun _ => ⟨hs.block, ?_, ?_, hs.seen,
    fun i n hu => (hun i n hu).2, hok⟩⟩
  · refine and_congr_right fun hb => or_congr_left ?_
    refine exists_congr fun i => exists_congr fun j => and_congr_right fun hsl => ?_
    by_cases hm : x.Moves hash b.key
    · have hmov : x.Moving hash m.block (old i j) := by
        rw [hs.seen i j a b hsl hb hm]
        exact .of_holds hb hm
      rw [(hmove i hsl.bucket_lt j hsl.slot_lt hmov).1]
    · simp [hm]
  · intro i j a hsl hm hc
    rw [(hmove i hsl.bucket_lt j hsl.slot_lt hm).2] at hc
    exact hs.same i j a hsl hm hc
  · intro i j a hsl hm hc
    rw [(hmove i hsl.bucket_lt j hsl.slot_lt hm).2] at hc
    exact hs.gone i j a hsl hm hc

/-- Outside the split it does not matter what `resize` has in its buffers. -/
theorem Slots.forget {old' : ℕ → ℕ → Slot} (h : Slots x hash K m p old new map)
    (hp : ¬ p.active) : Slots x hash K m p old' new' map :=
  { h with snapshot := fun ha => absurd ha hp }

theorem Slots.begin (h : Slots x hash K m (.bucket i) old new map) (hi : i < kTotalBuckets) :
    Slots x hash K m (.copy i 0 0 []) old new map := by
  refine h.advance trivial (fun k _ j _ _ => ?_) (fun k n hu => ?_) (by simp [Progress.Ok, hi])
  · simp [Progress.copied, Progress.cleared]
  · have hu' : (Progress.bucket i).unused k n := by
      simp only [Progress.unused] at hu ⊢
      omega
    exact ⟨hu', (h.snapshot trivial).buffer k n hu'⟩

section
variable (h : Slots x hash K m (.copy i j n l) old new map)
include h

theorem Slots.skip (hj : j < kAssociatedWays) (hm : ¬ x.Moving hash m.block (old i j)) :
    Slots x hash K m (.copy i (j + 1) 0 l) old new map := by
  obtain ⟨hi, -, hlen, hn, hnd, hl, hall⟩ := (h.snapshot trivial).ok
  refine h.advance trivial (fun k _ j' _ hm' => ?_)
    (fun k n hu => ⟨hu, (h.snapshot trivial).buffer k n hu⟩) ?_
  · have hne : ¬ (k = i ∧ j' = j) := by
      rintro ⟨rfl, rfl⟩
      exact hm hm'
    simp only [Progress.copied, Progress.cleared, and_true]
    omega
  · refine ⟨hi, hj, by omega, by omega, hnd,
      fun q hq => ⟨by have := (hl q hq).1; omega, (hl q hq).2⟩, fun j' hj' hm' => ?_⟩
    have hne : j' ≠ j := by
      rintro rfl
      exact hm hm'
    exact hall j' (by omega) hm'

theorem Slots.probe (hu : ¬ (Progress.copy i j n l).unused i n) (s : Slot) :
    Slots x hash K m (.copy i j (n + 1) l) old (update new i (update (new i) n s)) map := by
  obtain ⟨hi, hj, hlen, hn, hnd, hl, hall⟩ := (h.snapshot trivial).ok
  have hn' : n < l.length := not_le.mp fun hle => hu (.inr ⟨rfl, hle⟩)
  refine h.advance trivial (fun k _ j' _ _ => by simp [Progress.copied, Progress.cleared])
    (fun k n' hk => ⟨hk, ?_⟩) ⟨hi, hj, hlen, hn', hnd, hl, hall⟩
  have hbuf := (h.snapshot trivial).buffer k n' hk
  by_cases hki : k = i
  · subst hki
    have hne : n' ≠ n := by
      simp only [Progress.unused] at hk
      omega
    simpa [update_of_ne hne] using hbuf
  · simpa [update_of_ne hki] using hbuf

theorem Slots.room (hj : j < kAssociatedWays) : n < kAssociatedWays := by
  obtain ⟨-, -, hlen, hn, -⟩ := (h.snapshot trivial).ok
  omega

end

theorem Slots.copyDone (h : Slots x hash K m (.copy i kAssociatedWays n l) old new map) :
    Slots x hash K m (.clear i l) old new map := by
  obtain ⟨hi, -, hlen, hn, hnd, hl, hall⟩ := (h.snapshot trivial).ok
  refine h.advance trivial (fun k _ j' hj' hm => ?_) (fun k n' hu => ?_) ⟨hi, hnd, hl⟩
  · have hmem : k = i → j' ∈ l.map Prod.fst := by
      rintro rfl
      exact hall j' hj' hm
    simp only [Progress.copied, Progress.cleared]
    constructor
    · omega
    · constructor
      · rintro (hlt | ⟨rfl, hnot⟩)
        · exact hlt
        · exact absurd (hmem rfl) hnot
      · exact .inl
  · have hu' : (Progress.copy i kAssociatedWays n l).unused k n' := .inl hu
    exact ⟨hu', (h.snapshot trivial).buffer k n' hu'⟩

theorem Slots.clearDone (h : Slots x hash K m (.clear i []) old new map) :
    Slots x hash K m (.bucket (i + 1)) old new map := by
  refine h.advance trivial (fun k _ j' _ _ => ?_) (fun k n' hu => ?_) (h.snapshot trivial).ok.1
  · simp only [Progress.copied, Progress.cleared, List.map_nil, List.not_mem_nil,
      not_false_eq_true, and_true]
    omega
  · have hu' : (Progress.clear i []).unused k n' := by
      simp only [Progress.unused] at hu ⊢
      omega
    exact ⟨hu', (h.snapshot trivial).buffer k n' hu'⟩

theorem Slots.finish (h : Slots x hash K m (.bucket kTotalBuckets) old new map) :
    Slots x hash K m .after old new map :=
  h.advance trivial (fun k hk j' _ _ => by simp [Progress.copied, Progress.cleared, hk])
    (fun k n' hu => absurd hu (by simp [Progress.unused])) trivial

end Fusa.Table

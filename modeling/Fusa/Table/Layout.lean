import Mathlib.Data.UInt
import Fusa.Lib.CellMap

/-! Keys, values and blocks, and the remote memory of the hash table: directory and subtables. -/
namespace Fusa.Table
open Function List

/-- The bytes of a `std::string`. -/
abbrev Bytes := List UInt8

/-! ### `hash_function` -/

def rotl32 (x r : UInt32) : UInt32 := (x <<< r) ||| (x >>> (32 - r))

def fmix32 (h : UInt32) : UInt32 :=
  let h := (h ^^^ (h >>> 16)) * 0x85ebca6b
  let h := (h ^^^ (h >>> 13)) * 0xc2b2ae35
  h ^^^ (h >>> 16)

/-- What a word of the key, or its tail, contributes to `h1`. -/
def mixWord (k1 : UInt32) : UInt32 := rotl32 (k1 * 0xcc9e2d51) 15 * 0x1b873593

def murmurBlocks (h1 : UInt32) : Bytes → UInt32
  | a :: b :: c :: d :: rest =>
    let k1 := a.toUInt32 ||| (b.toUInt32 <<< 8) ||| (c.toUInt32 <<< 16) ||| (d.toUInt32 <<< 24)
    murmurBlocks (rotl32 (h1 ^^^ mixWord k1) 13 * 5 + 0xe6546b64) rest
  | [a, b, c] => h1 ^^^ mixWord ((c.toUInt32 <<< 16) ^^^ (b.toUInt32 <<< 8) ^^^ a.toUInt32)
  | [a, b] => h1 ^^^ mixWord ((b.toUInt32 <<< 8) ^^^ a.toUInt32)
  | [a] => h1 ^^^ mixWord a.toUInt32
  | [] => h1

def murmurHash3 (key : Bytes) (seed : UInt32) : UInt32 :=
  fmix32 (murmurBlocks seed key ^^^ UInt32.ofNat key.length)

def fnvRound (st : UInt64 × UInt64) : UInt64 × UInt64 :=
  (st.1 >>> 8, (st.2 ^^^ (st.1 &&& 0xff)) * 1099511628211)

/-- `FNVHash64`: eight rounds, each taking one octet of the value. -/
def fnvHash64 (val : UInt64) : UInt64 := (fnvRound^[8] (val, 0xCBF29CE484222325)).2

structure Hashes where
  h0 : UInt32
  h1 : UInt32
deriving DecidableEq, Repr

def hashFunction (key : Bytes) : Hashes where
  h0 := (fnvHash64 (murmurHash3 key 0xcc9e2d51).toUInt64 % 0xffffffff).toUInt32
  h1 := (fnvHash64 (murmurHash3 key 0x1b873593).toUInt64 % 0xffffffff).toUInt32

def getFingerprint (hash : UInt32) : UInt8 := (hash >>> 24).toUInt8

/-! ### Blocks -/

/-- `strncpy` of a string into a field of its length: zeros from its first NUL on. -/
def strncpy : Bytes → Bytes
  | [] => []
  | b :: s => if b = 0 then List.replicate (s.length + 1) 0 else b :: strncpy s

/-- `strncmp(s, t, n) == 0`, where a byte past the end of a string is its NUL. -/
def strncmpEq : ℕ → Bytes → Bytes → Bool
  | 0, _, _ => true
  | n + 1, s, t => s.headD 0 == t.headD 0 && (s.headD 0 == 0 || strncmpEq n s.tail t.tail)

structure Block where
  key : Bytes
  value : Bytes
deriving DecidableEq, Repr

/-- The key as it stands in the block, which is what `move_bucket` hashes. -/
def Block.storedKey (b : Block) : Bytes := strncpy b.key

/-- `read_block`: the value of a block whose key field passes `strncmp` with `key`. -/
def readBlock (key : Bytes) (b : Block) : Option Bytes :=
  if strncmpEq b.key.length b.storedKey key then some (strncpy b.value) else none

theorem strncpy_of_nulFree {s : Bytes} (h : 0 ∉ s) : strncpy s = s := by
  induction s with
  | nil => rfl
  | cons b s ih =>
    simp only [mem_cons, not_or] at h
    rw [strncpy, if_neg (Ne.symm h.1), ih h.2]

theorem strncmpEq_strncpy (s : Bytes) : strncmpEq s.length (strncpy s) s := by
  induction s with
  | nil => rfl
  | cons b s ih =>
    by_cases hb : b = 0
    · simp [strncpy, strncmpEq, hb, replicate_succ]
    · simp [strncpy, strncmpEq, hb, ih]

theorem strncmpEq_iff_begins {s : Bytes} (h : 0 ∉ s) (t : Bytes) :
    strncmpEq s.length s t ↔ s <+: t := by
  induction s generalizing t with
  | nil => simp [strncmpEq]
  | cons b s ih =>
    simp only [mem_cons, not_or] at h
    cases t with
    | nil => simp [strncmpEq, Ne.symm h.1]
    | cons c t => simp [strncmpEq, Ne.symm h.1, ih h.2, cons_prefix_cons]

theorem readBlock_self (b : Block) : readBlock b.key b = some (strncpy b.value) :=
  if_pos (strncmpEq_strncpy b.key)

theorem readBlock_isSome_iff {b : Block} (h : 0 ∉ b.key) (key : Bytes) :
    (readBlock key b).isSome ↔ b.key <+: key := by
  rw [readBlock, Block.storedKey, strncpy_of_nulFree h, ← strncmpEq_iff_begins h]
  split <;> simp_all

def kMaxGlobalDepth : ℕ := 12

def kAssociatedWays : ℕ := 7

def kMainBuckets : ℕ := 200000

def kTotalBuckets : ℕ := kMainBuckets / 2 * 3

def kBlockLengthUnit : ℕ := 64

def kMaxBlockLength : ℕ := 4096

/-- `sizeof(Bucket)`: the header word and seven slots. -/
def bucketBytes : ℕ := 64

structure Slot where
  fp : UInt8
  len : ℕ
  pointer : ℕ
deriving DecidableEq, Repr

/-- The slot with `raw == 0`. -/
def Slot.null : Slot := ⟨0, 0, 0⟩

/-- The first word of a bucket. -/
structure Header where
  localDepth : ℕ
  suffix : ℕ
deriving DecidableEq, Repr

structure SubTableEntry where
  lock : ℕ
  localDepth : ℕ
  pointer : ℕ
deriving DecidableEq, Repr

/-- `locked` is `kGlobalDepthLockedBit` of the word `global_depth`. -/
structure Directory where
  globalDepth : ℕ
  locked : Bool
  subtables : ℕ → SubTableEntry

/-- The memory server: slots and bucket headers by byte address, blocks by pointer. -/
structure Memory where
  dir : Directory
  header : ℕ → Header
  slot : ℕ → Slot
  block : ℕ → Option Block

def Directory.index (d : Directory) (hs : Hashes) : ℕ := hs.h0.toNat % 2 ^ d.globalDepth

def Directory.entry (d : Directory) (hs : Hashes) : SubTableEntry := d.subtables (d.index hs)

def Directory.setEntry (d : Directory) (i : ℕ) (e : SubTableEntry) : Directory :=
  { d with subtables := update d.subtables i e }

/-! ### Addresses -/

def bucketAddr (base b : ℕ) : ℕ := base + bucketBytes * b

def slotAddr (base b j : ℕ) : ℕ := bucketAddr base b + 8 + 8 * j

/-- The number of `bucket[i]` in `[h1, h2, h1_overflow, h2_overflow]`: mains share overflows. -/
def bucketNo (hs : Hashes) (i : ℕ) : ℕ :=
  let index := (if i % 2 = 0 then hs.h0 else hs.h1).toNat % kMainBuckets
  index / 2 * 3 + if index % 2 = 0 ↔ i < 2 then 0 else 1

/-- The slots of the four buckets in the order of the loops over `i` and `j`. -/
def positions : List ℕ := List.range (4 * kAssociatedWays)

def posAddr (base : ℕ) (hs : Hashes) (q : ℕ) : ℕ :=
  slotAddr base (bucketNo hs (q / kAssociatedWays)) (q % kAssociatedWays)

/-- One of the two reads of `read_bucket` fetches `bucket[i]` and `bucket[i + 2]`. -/
def posGroup (q : ℕ) : ℕ := q / kAssociatedWays % 2

theorem mem_positions {q : ℕ} : q ∈ positions ↔ q < 28 := mem_range

theorem nodup_positions : positions.Nodup := nodup_range

theorem posGroup_lt (q : ℕ) : posGroup q = 0 ∨ posGroup q = 1 := by
  unfold posGroup
  omega

theorem bucketNo_lt (hs : Hashes) (i : ℕ) : bucketNo hs i < kTotalBuckets := by
  have h : ∀ n (p : Prop) [Decidable p],
      n % kMainBuckets / 2 * 3 + (if p then 0 else 1) < kTotalBuckets := by
    intro n p _
    simp only [kMainBuckets, kTotalBuckets]
    split <;> omega
  exact h _ _

theorem slotAddr_inj {base b b' j j' : ℕ} (hj : j < kAssociatedWays) (hj' : j' < kAssociatedWays)
    (h : slotAddr base b j = slotAddr base b' j') : b = b' ∧ j = j' := by
  simp only [slotAddr, bucketAddr, bucketBytes, kAssociatedWays] at h hj hj'
  omega

/-! ### Buffers -/

/-- `bucket_buf` of a task, by `bucket[i]` and by position. -/
structure Buf where
  header : ℕ → Header
  slot : ℕ → Slot

/-- A read of two neighbouring buckets, the first (`r = 0`) or the second of `read_bucket`. -/
def readGroup (m : Memory) (base : ℕ) (hs : Hashes) (r : ℕ) (b : Buf) : Buf where
  header i := if i % 2 = r then m.header (bucketAddr base (bucketNo hs i)) else b.header i
  slot q := if posGroup q = r then m.slot (posAddr base hs q) else b.slot q

def Buf.setSlot (b : Buf) (q : ℕ) (s : Slot) : Buf :=
  { b with slot := update b.slot q s }

def Buf.firstEmpty (b : Buf) : Option ℕ := positions.find? fun q => b.slot q = .null

/-- `local_depth` and `suffix` of a bucket say that the key no longer belongs to it. -/
def stale (hs : Hashes) (e : SubTableEntry) (h : Header) : Bool :=
  h.localDepth ≠ e.localDepth ∧ h.suffix ≠ hs.h0.toNat % 2 ^ h.localDepth

/-- A slot with the fingerprint of `key` whose block `read_block` accepts. -/
def matchesKey (block : ℕ → Option Block) (hs : Hashes) (key : Bytes) (s : Slot) : Bool :=
  s ≠ .null ∧ s.fp = getFingerprint hs.h0 ∧
    ((block s.pointer).bind (readBlock key)).isSome

def findKey (block : ℕ → Option Block) (hs : Hashes) (key : Bytes) (slot : ℕ → Slot) : Option ℕ :=
  positions.find? fun q => matchesKey block hs key (slot q)

/-! ### Operations on the memory -/

/-- `atomic_update_slot`, whose buffer receives the word found in the memory. -/
def Memory.casSlot (m : Memory) (a : ℕ) (expected new : Slot) : Memory :=
  { m with slot := Cas.cas m.slot a expected new }

variable {m : Memory} {a : ℕ}

theorem casSlot_of_eq {e s : Slot} (h : m.slot a = e) :
    m.casSlot a e s = { m with slot := update m.slot a s } := by
  rw [Memory.casSlot, Cas.cas_of_eq h]

theorem casSlot_of_ne {e s : Slot} (h : m.slot a ≠ e) : m.casSlot a e s = m := by
  rw [Memory.casSlot, Cas.cas_of_ne h]

section
variable (hash : Bytes → Hashes)

def kvBlockLen (key value : Bytes) : ℕ :=
  (8 + key.length + value.length + 4 + (kBlockLengthUnit - 1)) / kBlockLengthUnit *
    kBlockLengthUnit

/-- `strncpy` keeps the value, and its block fits into the buffer of a task. -/
def Storable (key value : Bytes) : Prop := 0 ∉ value ∧ kvBlockLen key value ≤ kMaxBlockLength
deriving Decidable

/-- The slot `write_block` makes for a block at `pointer`. -/
def blockSlot (key value : Bytes) (pointer : ℕ) : Slot where
  fp := getFingerprint (hash key).h0
  len := kvBlockLen key value / kBlockLengthUnit
  pointer := pointer

/-- `write_block` into freshly allocated memory. -/
def Memory.writeBlock (m : Memory) (key value : Bytes) (pointer : ℕ) : Memory :=
  { m with block := update m.block pointer (some ⟨key, value⟩) }

theorem Memory.block_writeBlock (m : Memory) (key value : Bytes) (pointer : ℕ) :
    (m.writeBlock key value pointer).block pointer = some ⟨key, value⟩ :=
  update_self ..

theorem writeBlock_of_some {key value : Bytes} {pointer p : ℕ} {b : Block}
    (hf : m.block pointer = none) (hb : m.block p = some b) :
    (m.writeBlock key value pointer).block p = some b := by
  have hne : p ≠ pointer := by
    rintro rfl
    simp [hf] at hb
  exact (update_of_ne hne _ _).trans hb

/-- The address of position `q` of `key` in its subtable. -/
abbrev Memory.place (m : Memory) (key : Bytes) (q : ℕ) : ℕ :=
  posAddr (m.dir.entry (hash key)).pointer (hash key) q

/-- The bucket `k` of `key` in the subtable of the entry `e` has been split. -/
abbrev Memory.staleAt (m : Memory) (e : SubTableEntry) (key : Bytes) (k : ℕ) : Bool :=
  stale (hash key) e (m.header (bucketAddr e.pointer (bucketNo (hash key) k)))

/-- One pass of `search` over the buckets of `key` in the subtable at `base`. -/
def searchAt (m : Memory) (base : ℕ) (key : Bytes) : Option Bytes :=
  let slot := fun q => m.slot (posAddr base (hash key) q)
  (findKey m.block (hash key) key slot).bind fun q =>
    (m.block (slot q).pointer).bind (readBlock key)

/-- `search` with the cached directory `d`, while the memory is at rest. -/
def search (m : Memory) (d : Directory) (key : Bytes) : Option Bytes :=
  let e := d.entry (hash key)
  match searchAt hash m e.pointer key with
  | some value => some value
  | none =>
    if (List.range 4).any fun i =>
        stale (hash key) e (m.header (bucketAddr e.pointer (bucketNo (hash key) i))) then
      searchAt hash m (m.dir.entry (hash key)).pointer key
    else none

end

end Fusa.Table

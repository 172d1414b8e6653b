import Mathlib.Tactic.Ring
import Fusa.Lib.Bytes
import Fusa.Table.Layout

/-! The bytes of a block, from `write_block` to `read_block`. -/
namespace Fusa.Table
open List

def crcBit (c : UInt32) : UInt32 :=
  if c &&& 1 = 1 then (c >>> 1) ^^^ 0xEDB88320 else c >>> 1

def crcByte (c : UInt32) (b : UInt8) : UInt32 := crcBit^[8] (c ^^^ b.toUInt32)

/-- `CRC::Calculate` with the parameters `CRC::CRC_32()`: both ends reflected. -/
def crc32 (data : Bytes) : UInt32 := data.foldl crcByte 0xFFFFFFFF ^^^ 0xFFFFFFFF

def le32 (x : UInt32) : Bytes :=
  [x.toUInt8, (x >>> 8).toUInt8, (x >>> 16).toUInt8, (x >>> 24).toUInt8]

def getLe32 (m : ℕ → UInt8) (a : ℕ) : UInt32 :=
  UInt32.ofNat ((m a).toNat + 256 * (m (a + 1)).toNat + 65536 * (m (a + 2)).toNat +
    16777216 * (m (a + 3)).toNat)

def roundup (x y : ℕ) : ℕ := (x + (y - 1)) / y * y

/-- Header, key, value and checksum, in whole units. -/
def getKvBlockLen (key value : Bytes) : ℕ :=
  roundup (8 + key.length + value.length + 4) kBlockLengthUnit

def calcCrc32 (block : ℕ → UInt8) (blockLen : ℕ) : UInt32 :=
  crc32 (Bytes.slice block 0 (blockLen - 4))

def checkKvBlockCrc32 (block : ℕ → UInt8) (blockLen : ℕ) : Bool :=
  getLe32 block (blockLen - 4) = calcCrc32 block blockLen

namespace Raw

/-- `block_buf` with the two lengths, over whatever it held before. -/
def setLens (buf : ℕ → UInt8) (key value : Bytes) : ℕ → UInt8 :=
  Bytes.put (Bytes.put buf 0 (le32 (UInt32.ofNat key.length))) 4
    (le32 (UInt32.ofNat value.length))

def setKey (block : ℕ → UInt8) (key : Bytes) : ℕ → UInt8 := Bytes.put block 8 (strncpy key)

/-- `get_kv_block_value` finds the place behind the key. -/
def setValue (block : ℕ → UInt8) (value : Bytes) : ℕ → UInt8 :=
  Bytes.put block (8 + (getLe32 block 0).toNat) (strncpy value)

def updateKvBlockCrc32 (block : ℕ → UInt8) (blockLen : ℕ) : ℕ → UInt8 :=
  Bytes.put block (blockLen - 4) (le32 (calcCrc32 block blockLen))

/-- The block that `write_block` sends. -/
def block (buf : ℕ → UInt8) (key value : Bytes) : ℕ → UInt8 :=
  updateKvBlockCrc32 (setValue (setKey (setLens buf key value) key) value)
    (getKvBlockLen key value)

/-- The memory node after `write_block` has put the block at `offset`. -/
def written (buf remote : ℕ → UInt8) (key value : Bytes) (offset : ℕ) : ℕ → UInt8 :=
  Bytes.put remote offset (Bytes.slice (block buf key value) 0 (getKvBlockLen key value))

/-- The slot that `write_block` returns; `len` has 8 bits and `pointer` has 48. -/
def slotOf (key value : Bytes) (offset : ℕ) : Slot where
  fp := getFingerprint (hashFunction key).h0
  len := getKvBlockLen key value / kBlockLengthUnit % 2 ^ 8
  pointer := offset % 2 ^ 48

/-- What `read_block` makes of the block in its buffer; `none` is `ENOENT`. -/
def parse (key : Bytes) (block : ℕ → UInt8) : Option Bytes :=
  let keyLen := (getLe32 block 0).toNat
  if strncmpEq keyLen (Bytes.slice block 8 keyLen) key then
    some (Bytes.slice block (8 + keyLen) (getLe32 block 4).toNat)
  else none

/-- `read_block`, which reads again until the checksum fits, that many times. -/
def readBlock (key : Bytes) (slot : Slot) (retry : Bool) (remote : ℕ → UInt8) :
    (ℕ → UInt8) → ℕ → Option (Option Bytes)
  | _, 0 => none
  | buf, reads + 1 =>
    let blockLen := slot.len * kBlockLengthUnit
    let block := Bytes.put buf 0 (Bytes.slice remote slot.pointer blockLen)
    if checkKvBlockCrc32 block blockLen then some (parse key block)
    else if retry then readBlock key slot retry remote block reads
    else some none

end Raw

variable {m m' : ℕ → UInt8}

@[simp] theorem length_le32 (x : UInt32) : (le32 x).length = 4 := rfl

@[simp] theorem length_strncpy (s : Bytes) : (strncpy s).length = s.length := by
  induction s with
  | nil => rfl
  | cons b s ih =>
    unfold strncpy
    split_ifs
    · simp
    · simp [ih]

theorem getLe32_congr {a b : ℕ} (h : ∀ k < 4, m (a + k) = m' (b + k)) :
    getLe32 m a = getLe32 m' b := by
  have h0 : m a = m' b := h 0 (by decide)
  unfold getLe32
  rw [h0, h 1 (by decide), h 2 (by decide), h 3 (by decide)]

theorem getLe32_put (m : ℕ → UInt8) (a : ℕ) (x : UInt32) :
    getLe32 (Bytes.put m a (le32 x)) a = x := by
  have h0 : Bytes.put m a (le32 x) a = x.toUInt8 := Bytes.put_add (k := 0) (by simp)
  have h1 : Bytes.put m a (le32 x) (a + 1) = (x >>> 8).toUInt8 := Bytes.put_add (by simp)
  have h2 : Bytes.put m a (le32 x) (a + 2) = (x >>> 16).toUInt8 := Bytes.put_add (by simp)
  have h3 : Bytes.put m a (le32 x) (a + 3) = (x >>> 24).toUInt8 := Bytes.put_add (by simp)
  have hx := x.toNat_lt
  unfold getLe32
  rw [h0, h1, h2, h3]
  apply UInt32.toNat.inj
  simp only [UInt32.toNat_ofNat', UInt32.toNat_toUInt8, UInt32.toNat_shiftRight,
    Nat.shiftRight_eq_div_pow]
  change (x.toNat % 2 ^ 8 + 256 * (x.toNat / 2 ^ 8 % 2 ^ 8) + 65536 * (x.toNat / 2 ^ 16 % 2 ^ 8) +
    16777216 * (x.toNat / 2 ^ 24 % 2 ^ 8)) % 2 ^ 32 = x.toNat
  omega

theorem getLe32_put_of_outside {a b : ℕ} {xs : Bytes} (h : a + 4 ≤ b) :
    getLe32 (Bytes.put m b xs) a = getLe32 m a :=
  getLe32_congr fun _ _ => Bytes.put_of_outside (.inl (by omega))

theorem slice_put_strncpy (m : ℕ → UInt8) (a : ℕ) (s : Bytes) :
    Bytes.slice (Bytes.put m a (strncpy s)) a s.length = strncpy s := by
  have h : Bytes.slice (Bytes.put m a (strncpy s)) a (strncpy s).length = strncpy s :=
    Bytes.slice_put_self
  rwa [length_strncpy] at h

namespace Raw
variable {buf remote : ℕ → UInt8} {key value : Bytes} {offset : ℕ}

theorem fields_le (key value : Bytes) :
    8 + key.length + value.length + 4 ≤ getKvBlockLen key value := by
  unfold getKvBlockLen roundup kBlockLengthUnit
  omega

theorem slotLen_mul (hfit : getKvBlockLen key value ≤ kMaxBlockLength) :
    (slotOf key value offset).len * kBlockLengthUnit = getKvBlockLen key value := by
  unfold kMaxBlockLength at hfit
  simp only [slotOf]
  unfold getKvBlockLen roundup kBlockLengthUnit at hfit ⊢
  omega

theorem keyLen_setKey (buf : ℕ → UInt8) (key value : Bytes) :
    getLe32 (setKey (setLens buf key value) key) 0 = UInt32.ofNat key.length := by
  unfold setKey setLens
  rw [getLe32_put_of_outside (by omega), getLe32_put_of_outside (by omega), getLe32_put]

theorem valueLen_setKey (buf : ℕ → UInt8) (key value : Bytes) :
    getLe32 (setKey (setLens buf key value) key) 4 = UInt32.ofNat value.length := by
  unfold setKey setLens
  rw [getLe32_put_of_outside (by omega), getLe32_put]

section
variable (hfit : getKvBlockLen key value ≤ kMaxBlockLength)
include hfit

theorem toNat_keyLen : (UInt32.ofNat key.length).toNat = key.length := by
  have := fields_le key value
  unfold kMaxBlockLength at hfit
  rw [UInt32.toNat_ofNat', Nat.mod_eq_of_lt (by omega)]

theorem toNat_valueLen : (UInt32.ofNat value.length).toNat = value.length := by
  have := fields_le key value
  unfold kMaxBlockLength at hfit
  rw [UInt32.toNat_ofNat', Nat.mod_eq_of_lt (by omega)]

theorem block_eq (buf : ℕ → UInt8) :
    block buf key value = updateKvBlockCrc32 (Bytes.put (setKey (setLens buf key value) key)
      (8 + key.length) (strncpy value)) (getKvBlockLen key value) := by
  unfold block setValue
  rw [keyLen_setKey, toNat_keyLen hfit]

theorem keyLen_block (buf : ℕ → UInt8) :
    getLe32 (block buf key value) 0 = UInt32.ofNat key.length := by
  have := fields_le key value
  rw [block_eq hfit, updateKvBlockCrc32, getLe32_put_of_outside (by omega),
    getLe32_put_of_outside (by omega), keyLen_setKey]

theorem valueLen_block (buf : ℕ → UInt8) :
    getLe32 (block buf key value) 4 = UInt32.ofNat value.length := by
  have := fields_le key value
  rw [block_eq hfit, updateKvBlockCrc32, getLe32_put_of_outside (by omega),
    getLe32_put_of_outside (by omega), valueLen_setKey]

theorem key_block (buf : ℕ → UInt8) :
    Bytes.slice (block buf key value) 8 key.length = strncpy key := by
  have := fields_le key value
  rw [block_eq hfit, updateKvBlockCrc32, Bytes.slice_put_of_outside (.inl (by omega)),
    Bytes.slice_put_of_outside (.inl (by omega)), setKey, slice_put_strncpy]

theorem value_block (buf : ℕ → UInt8) :
    Bytes.slice (block buf key value) (8 + key.length) value.length = strncpy value := by
  have := fields_le key value
  rw [block_eq hfit, updateKvBlockCrc32, Bytes.slice_put_of_outside (.inl (by omega)),
    slice_put_strncpy]

omit hfit in
theorem check_block (buf : ℕ → UInt8) :
    checkKvBlockCrc32 (block buf key value) (getKvBlockLen key value) = true := by
  unfold checkKvBlockCrc32 block updateKvBlockCrc32
  rw [getLe32_put, decide_eq_true_iff, calcCrc32, calcCrc32,
    Bytes.slice_put_of_outside (.inl (by omega))]

end

variable {n : ℕ}

theorem check_congr (h : Bytes.Agree n m m') (hn : 4 ≤ n) :
    checkKvBlockCrc32 m n = checkKvBlockCrc32 m' n := by
  have hcrc : getLe32 m (n - 4) = getLe32 m' (n - 4) := getLe32_congr fun k hk => h _ (by omega)
  unfold checkKvBlockCrc32 calcCrc32
  rw [hcrc, h.slice (by omega)]

theorem parse_congr (h : Bytes.Agree n m m')
    (hn : 8 + (getLe32 m' 0).toNat + (getLe32 m' 4).toNat ≤ n) (lookup : Bytes) :
    parse lookup m = parse lookup m' := by
  have h0 : getLe32 m 0 = getLe32 m' 0 := getLe32_congr fun k hk => h _ (by omega)
  have h4 : getLe32 m 4 = getLe32 m' 4 := getLe32_congr fun k hk => h _ (by omega)
  unfold parse
  dsimp only
  rw [h0, h4, h.slice (by omega), h.slice (by omega)]

theorem readBlock_written (hfit : getKvBlockLen key value ≤ kMaxBlockLength)
    (hoff : offset < 2 ^ 48) (lookup : Bytes) (retry : Bool) (buf remote buf' : ℕ → UInt8)
    (reads : ℕ) :
    readBlock lookup (slotOf key value offset) retry (written buf remote key value offset) buf'
      (reads + 1) = some (Table.readBlock lookup ⟨key, value⟩) := by
  have hle := fields_le key value
  have hptr : (slotOf key value offset).pointer = offset := Nat.mod_eq_of_lt hoff
  have hsent : Bytes.slice (written buf remote key value offset) offset (getKvBlockLen key value) =
      Bytes.slice (block buf key value) 0 (getKvBlockLen key value) := by
    have h : Bytes.slice (written buf remote key value offset) offset
        (Bytes.slice (block buf key value) 0 (getKvBlockLen key value)).length = _ :=
      Bytes.slice_put_self
    rwa [Bytes.length_slice] at h
  have hagree : Bytes.Agree (getKvBlockLen key value)
      (Bytes.put buf' 0 (Bytes.slice (block buf key value) 0 (getKvBlockLen key value)))
      (block buf key value) := by
    intro k hk
    simp [Bytes.put, Bytes.slice, hk]
  have hcheck := (check_congr hagree (by omega)).trans (check_block buf)
  have hparse := parse_congr hagree (by
    rw [keyLen_block hfit, valueLen_block hfit, toNat_keyLen hfit, toNat_valueLen hfit]
    omega) lookup
  rw [readBlock]
  simp only [slotLen_mul hfit, hptr, hsent, hcheck, if_true, hparse]
  unfold parse Table.readBlock Block.storedKey
  dsimp only
  rw [keyLen_block hfit, valueLen_block hfit, toNat_keyLen hfit, toNat_valueLen hfit,
    key_block hfit, value_block hfit]

end Raw

/-! ### What C strings make of keys and values -/

def cString (s : Bytes) : Bytes := s.takeWhile (· ≠ 0)

@[simp] theorem cString_nil : cString [] = [] := rfl

@[simp] theorem cString_cons (b : UInt8) (s : Bytes) :
    cString (b :: s) = if b = 0 then [] else b :: cString s := by
  by_cases hb : b = 0 <;> simp [cString, hb]

def NulPadded (s : Bytes) : Prop := s.Pairwise fun a b => a = 0 → b = 0
deriving Decidable

theorem strncpy_eq_self_iff (s : Bytes) : strncpy s = s ↔ NulPadded s := by
  induction s with
  | nil => simp [strncpy, NulPadded]
  | cons b s ih =>
    unfold NulPadded at ih ⊢
    rw [pairwise_cons, ← ih, strncpy]
    split_ifs with hb
    · rw [replicate_succ, hb, cons_eq_cons]
      constructor
      · rintro ⟨-, hz⟩
        have hall : ∀ c ∈ s, c = 0 := fun c hc => eq_of_mem_replicate (hz ▸ hc)
        exact ⟨fun c hc _ => hall c hc, ih.mpr (pairwise_of_forall_mem_list
          fun _ _ c hc _ => hall c hc)⟩
      · rintro ⟨hall, -⟩
        exact ⟨rfl, (eq_replicate_of_mem fun c hc => hall c hc rfl).symm⟩
    · simp [hb]

theorem strncmpEq_strncpy_iff (s t : Bytes) : strncmpEq s.length (strncpy s) t ↔
      if 0 ∈ s then cString t = cString s else s <+: t := by
  induction s generalizing t with
  | nil => simp [strncmpEq]
  | cons b s ih =>
    by_cases hb : b = 0
    · have hl : strncmpEq (b :: s).length (strncpy (b :: s)) t ↔ 0 = t.headD 0 := by
        simp [strncpy, strncmpEq, hb, replicate_succ]
      rw [hl, if_pos (by simp [hb]), cString_cons, if_pos hb]
      cases t with
      | nil => simp
      | cons c t =>
        rw [headD_cons, cString_cons, eq_comm]
        split_ifs with hc <;> simp [hc]
    · have hl : strncmpEq (b :: s).length (strncpy (b :: s)) t ↔
          b = t.headD 0 ∧ strncmpEq s.length (strncpy s) t.tail := by
        simp [strncpy, strncmpEq, hb]
      rw [hl, ih]
      cases t with
      | nil => simp [hb]
      | cons c t =>
        by_cases hbc : b = c
        · subst hbc
          simp [hb, Ne.symm hb]
        · by_cases hc : c = 0 <;> simp [hb, hbc, hc, Ne.symm hb, Ne.symm hbc]

/-- A block decodes to what was encoded exactly when C strings do it no harm. -/
theorem readBlock_written_iff {key value lookup : Bytes} {offset : ℕ}
    (hfit : getKvBlockLen key value ≤ kMaxBlockLength) (hoff : offset < 2 ^ 48)
    (retry : Bool) (buf remote buf' : ℕ → UInt8) (reads : ℕ) :
    Raw.readBlock lookup (Raw.slotOf key value offset) retry
        (Raw.written buf remote key value offset) buf' (reads + 1) =
      some (if lookup = key then some value else none) ↔ if lookup = key then NulPadded value
    else if 0 ∈ key then cString lookup ≠ cString key else ¬ key <+: lookup := by
  rw [Raw.readBlock_written hfit hoff, Option.some.injEq]
  by_cases hk : lookup = key
  · have hself : readBlock key ⟨key, value⟩ = some (strncpy value) := readBlock_self ⟨key, value⟩
    rw [if_pos hk, if_pos hk, hk, hself, Option.some.injEq, strncpy_eq_self_iff]
  · have hnone : readBlock lookup ⟨key, value⟩ = none ↔
        ¬ strncmpEq key.length (strncpy key) lookup := by
      unfold readBlock Block.storedKey
      split_ifs with hm <;> simp [hm]
    rw [if_neg hk, if_neg hk, hnone, strncmpEq_strncpy_iff]
    split_ifs <;> rfl

theorem readBlock_written_letters : Raw.readBlock [97] (Raw.slotOf [97] [1, 2] 64) true
        (Raw.written (fun _ => 0) (fun _ => 0) [97] [1, 2] 64) (fun _ => 0) 1 = some (some [1, 2]) ∧
    Raw.readBlock [98] (Raw.slotOf [97] [1, 2] 64) true
        (Raw.written (fun _ => 0) (fun _ => 0) [97] [1, 2] 64) (fun _ => 0) 1 = some none :=
  ⟨(readBlock_written_iff (by decide) (by decide) true _ _ _ 0).mpr
      (by decide),
    (readBlock_written_iff (by decide) (by decide) true _ _ _ 0).mpr (by decide)⟩

/-- The block of `"a"` is taken for `"ab"`, and a value loses what follows its NUL. -/
theorem readBlock_written_longer : getKvBlockLen [97] [1] ≤ kMaxBlockLength ∧
    Raw.readBlock [97, 98] (Raw.slotOf [97] [1] 64) true
        (Raw.written (fun _ => 0) (fun _ => 0) [97] [1] 64) (fun _ => 0) 1 = some (some [1]) ∧
    Raw.readBlock [97] (Raw.slotOf [97] [1, 0, 2] 64) true
        (Raw.written (fun _ => 0) (fun _ => 0) [97] [1, 0, 2] 64) (fun _ => 0) 1 =
      some (some [1, 0, 0]) :=
  ⟨by decide, (Raw.readBlock_written (by decide) (by decide) _ _ _ _ _ _).trans (by decide),
    (Raw.readBlock_written (by decide) (by decide) _ _ _ _ _ _).trans (by decide)⟩

end Fusa.Table

import Fusa.Driver.ChainBytes
import Mathlib.Tactic.Ring

/-! What a device sends for the WQE of a raw packet: the inline header and the data behind it. -/
namespace Fusa.Driver.Sq
open Bytes List

/-- `inline_hdr_sz` of a WQE, whose bytes are counted from its control segment. -/
def hdrSz (v : Mem) : ℕ := beNat (slice v 28 2)

def dataAt (v : Mem) : ℕ := 16 + (16 + hdrSz v) / 16 * 16

def pointed (ram : Ram) (v : Mem) : ℕ → ℕ → List UInt8
  | _, 0 => []
  | o, n + 1 =>
    load ram (UInt64.ofNat (beNat (slice v (o + 8) 8))) (beNat (slice v o 4)) ++
      pointed ram v (o + 16) n

def inlined (v : Mem) (o n : ℕ) : List UInt8 :=
  if n = 0 then [] else slice v (o + 4) (beNat (slice v o 4) - 2 ^ 31)

def sent (ram : Ram) (inline : Bool) (v : Mem) (size : ℕ) : List UInt8 :=
  let units := size - dataAt v / 16
  slice v 30 (hdrSz v) ++
    if inline then inlined v (dataAt v) units else pointed ram v (dataAt v) units

/-- The data segments of an SGE list from an offset in its first element on. -/
def pieces : List Sge → ℕ → List Sge
  | [], _ => []
  | sg :: sgs, offset =>
    if sg.length = 0 then pieces sgs offset
    else ⟨sg.addr + UInt64.ofNat offset, sg.length - UInt32.ofNat offset, sg.lkey⟩ :: pieces sgs 0

def segBytes (sgs : List Sge) : List UInt8 :=
  sgs.flatMap fun sg => dataSeg sg.length sg.lkey sg.addr

def Within (bs : List DataBuf) (offset : ℕ) : Prop :=
  offset = 0 ∨ ∃ b bs', bs = b :: bs' ∧ offset < b.length

section
variable {ram : Ram} {v : Mem} {o n h size : ℕ}

theorem beNat_append (xs ys : List UInt8) :
    beNat (xs ++ ys) = beNat xs * 256 ^ ys.length + beNat ys := by
  have hgen : ∀ (zs : List UInt8) (k : ℕ), zs.foldl (fun n b => 256 * n + b.toNat) k =
      k * 256 ^ zs.length + zs.foldl (fun n b => 256 * n + b.toNat) 0 := by
    intro zs
    induction zs with
    | nil => simp
    | cons z zs ih =>
      intro k
      rw [foldl_cons, foldl_cons, ih, ih (256 * 0 + z.toNat), length_cons, pow_succ]
      ring
  rw [beNat, foldl_append, hgen]
  rfl

theorem beNat_be64 (x : UInt64) : beNat (be64 x) = x.toNat := by
  have hx := x.toNat_lt
  rw [be64, beNat_append, beNat_be32, beNat_be32, length_be32]
  simp
  omega

variable {sgs : List Sge} {offset copied : ℕ} {list done tail : List DataBuf} {last : DataBuf}

@[simp] theorem length_segBytes (sgs : List Sge) : (segBytes sgs).length = 16 * sgs.length := by
  induction sgs with
  | nil => rfl
  | cons sg sgs ih =>
    rw [segBytes, flatMap_cons, length_append, length_dataSeg, length_cons]
    rw [segBytes] at ih
    omega

theorem pointed_segBytes (h : slice v o (16 * sgs.length) = segBytes sgs) :
    pointed ram v o sgs.length = cat ram (sgs.map Sge.buf) := by
  induction sgs generalizing o with
  | nil => rfl
  | cons sg sgs ih =>
    have hcut : slice v o (16 * (sgs.length + 1)) =
        slice v o 4 ++ (slice v (o + 4) 4 ++ (slice v (o + 8) 8 ++
          slice v (o + 16) (16 * sgs.length))) := by
      rw [← slice_add, ← slice_add, ← slice_add]
      congr 1
      omega
    rw [length_cons, hcut, segBytes, flatMap_cons, dataSeg, append_assoc, append_assoc] at h
    obtain ⟨hcount, h⟩ := append_inj h (by simp)
    obtain ⟨-, h⟩ := append_inj h (by simp)
    obtain ⟨haddr, h⟩ := append_inj h (by simp)
    rw [length_cons, pointed, hcount, haddr, beNat_be32, beNat_be64, UInt64.ofNat_toNat,
      ih h, map_cons, cat_cons]
    rfl

section
variable (hh : h = 0 ∨ h = 18) (hs : slice v 28 2 = be16 (UInt16.ofNat h))
include hh hs

theorem dataAt_of_hdrSz : hdrSz v = h ∧ dataAt v = 16 + (16 + h) / 16 * 16 := by
  have hsz : hdrSz v = h := by
    rw [hdrSz, hs, beNat_be16]
    rcases hh with rfl | rfl <;> rfl
  exact ⟨hsz, by rw [dataAt, hsz]⟩

theorem sent_pointed (ho : o = 16 + (16 + h) / 16 * 16) (hsize : 16 * size = o + 16 * sgs.length)
    (hd : slice v o (16 * sgs.length) = segBytes sgs) :
    sent ram false v size = slice v 30 h ++ cat ram (sgs.map Sge.buf) := by
  obtain ⟨hsz, hat⟩ := dataAt_of_hdrSz hh hs
  have hunits : size - o / 16 = sgs.length := by omega
  rw [sent, hsz, hat, ← ho]
  simp only [Bool.false_eq_true, if_false, hunits, pointed_segBytes hd]

end

theorem sent_inlined (ram : Ram) (hh : h = 0 ∨ h = 18) (hs : slice v 28 2 = be16 (UInt16.ofNat h))
    (ho : o = 16 + (16 + h) / 16 * 16) (hn : n < 2 ^ 31)
    (hsize : 16 * size = o + 16 * (if n = 0 then 0 else (n + 4 + 15) / 16))
    (hd : n ≠ 0 → slice v o 4 = be32 (inlineCount n)) :
    sent ram true v size = slice v 30 h ++ slice v (o + 4) n := by
  obtain ⟨hsz, hat⟩ := dataAt_of_hdrSz hh hs
  rw [sent, hsz, hat, ← ho]
  simp only [if_true, inlined]
  by_cases h0 : n = 0
  · subst h0
    rw [if_pos (by simp at hsize; omega)]
    rfl
  · rw [if_neg h0] at hsize
    rw [if_neg (by omega), hd h0, beNat_be32, inlineCount_toNat hn, Nat.add_sub_cancel_left]

theorem dataBytes_eq {w : SendWr} (hw : w.opcode.isAtomic = false) (sgs : List Sge) (offset : ℕ) :
    w.dataBytes sgs offset = segBytes (pieces sgs offset) := by
  induction sgs generalizing offset with
  | nil => rfl
  | cons sg sgs ih =>
    simp only [SendWr.dataBytes, pieces]
    split
    · exact ih offset
    · rw [ih, SendWr.dataSeg, hw]
      rfl

theorem length_pieces (sgs : List Sge) (offset : ℕ) :
    (pieces sgs offset).length = liveSges sgs := by
  induction sgs generalizing offset with
  | nil => rfl
  | cons sg sgs ih =>
    unfold pieces liveSges
    split
    · rename_i hz
      rw [ih, countP_cons_of_neg (by simp [hz]), liveSges]
    · rename_i hz
      rw [length_cons, ih, countP_cons_of_pos (by simp [hz]), liveSges]

theorem cat_pieces_zero (sgs : List Sge) :
    cat ram ((pieces sgs 0).map Sge.buf) = cat ram (sgs.map Sge.buf) := by
  induction sgs with
  | nil => rfl
  | cons sg sgs ih =>
    unfold pieces
    split
    · rename_i hz
      have hnone : load ram sg.addr sg.length.toNat = [] := by rw [hz]; rfl
      rw [ih, map_cons, cat_cons]
      simp [Sge.buf, hnone]
    · rw [map_cons, map_cons, cat_cons, cat_cons, ih]
      simp [Sge.buf]

theorem load_drop (addr : UInt64) {k : ℕ} (hk : k ≤ n) :
    (load ram addr n).drop k = load ram (addr + UInt64.ofNat k) (n - k) := by
  have hsplit := load_add ram addr k (n - k)
  rw [Nat.add_sub_cancel' hk] at hsplit
  rw [hsplit, drop_left' (length_load ram addr k)]

theorem cat_pieces (hw : Within (sgs.map Sge.buf) offset) :
    cat ram ((pieces sgs offset).map Sge.buf) = (cat ram (sgs.map Sge.buf)).drop offset := by
  rcases hw with rfl | ⟨b, bs, heq, hlt⟩
  · rw [cat_pieces_zero, drop_zero]
  · cases sgs with
    | nil => simp at heq
    | cons sg sgs =>
      obtain ⟨rfl, rfl⟩ := List.cons.inj heq
      have hlen : offset < sg.length.toNat := hlt
      have hbig := sg.length.toNat_lt
      have hnz : sg.length ≠ 0 := by
        intro hz
        rw [hz] at hlen
        simp at hlen
      have hoff : (UInt32.ofNat offset).toNat = offset :=
        UInt32.toNat_ofNat_of_lt' (by simp [UInt32.size]; omega)
      have hsub : (sg.length - UInt32.ofNat offset).toNat = sg.length.toNat - offset := by
        rw [UInt32.toNat_sub_of_le _ _ (by rw [UInt32.le_iff_toNat_le, hoff]; omega), hoff]
      rw [pieces, if_neg hnz, map_cons, map_cons, cat_cons, cat_cons, cat_pieces_zero,
        drop_append_of_le_length (by simp [Sge.buf]; omega)]
      simp only [Sge.buf, hsub, load_drop sg.addr hlen.le]

theorem inlBytes_eq (hw : Within (sgs.map Sge.buf) offset) :
    inlBytes ram sgs offset = (cat ram (sgs.map Sge.buf)).drop offset := by
  have hzero : ∀ sgs : List Sge, inlBytes ram sgs 0 = cat ram (sgs.map Sge.buf) := by
    intro sgs
    induction sgs with
    | nil => rfl
    | cons sg sgs ih =>
      rw [inlBytes, ih, map_cons, cat_cons]
      simp [Sge.buf]
  rcases hw with rfl | ⟨b, bs, heq, hlt⟩
  · rw [hzero, drop_zero]
  · cases sgs with
    | nil => simp at heq
    | cons sg sgs =>
      obtain ⟨rfl, rfl⟩ := List.cons.inj heq
      have hlen : offset < sg.length.toNat := hlt
      rw [inlBytes, hzero, map_cons, cat_cons, drop_append_of_le_length (by simp [Sge.buf]; omega)]
      simp only [Sge.buf, load_drop sg.addr hlen.le]

theorem Split.within (hs : Split ram h list done last tail copied) {p : SgCopyPtr}
    (hp : p = if last.length = copied then ⟨done.length + 1, 0⟩ else ⟨done.length, copied⟩) :
    Within (list.drop p.index) p.offset := by
  subst hp
  split
  · exact Or.inl rfl
  · rename_i hne
    have hle := hs.le
    refine Or.inr ⟨last, tail, ?_, by simp only; omega⟩
    rw [hs.list]
    simp

theorem Split.length_head (hs : Split ram h list done last tail copied) :
    (cat ram done ++ load ram last.addr copied).length = h := by
  rw [length_append, length_load]
  exact hs.size

end

end Fusa.Driver.Sq

import Fusa.Lib.Bytes
import Mathlib.Data.UInt

/-! The segments of a send WQE, and the head of a packet in the Ethernet segment. -/
namespace Fusa.Driver.Sq
open Bytes List Nat

/-- Bytes of the send queue buffer, by their distance from `sq_start`. -/
abbrev Mem := ℕ → UInt8

abbrev Ram := UInt64 → UInt8

/-- The errors of the post functions; `fault` stands for a `memcpy` of a negative length. -/
inductive Errno
  | einval
  | enomem
  | eopnotsupp
  | fault
deriving DecidableEq, Repr

def be16 (x : UInt16) : List UInt8 := [(x >>> 8).toUInt8, x.toUInt8]

def be32 (x : UInt32) : List UInt8 :=
  [(x >>> 24).toUInt8, (x >>> 16).toUInt8, (x >>> 8).toUInt8, x.toUInt8]

def be64 (x : UInt64) : List UInt8 := be32 (x >>> 32).toUInt32 ++ be32 x.toUInt32

def beNat (bs : List UInt8) : ℕ := bs.foldl (fun n b => 256 * n + b.toNat) 0

variable (ram : Ram) (m : Mem)

/-- `n` bytes of the caller's memory. -/
def load (addr : UInt64) (n : ℕ) : List UInt8 :=
  (List.range n).map fun k => ram (addr + UInt64.ofNat k)

structure DataBuf where
  addr : UInt64
  length : ℕ
deriving DecidableEq, Repr

structure Sge where
  addr : UInt64
  length : UInt32
  lkey : UInt32
deriving DecidableEq, Repr

def Sge.buf (sg : Sge) : DataBuf := ⟨sg.addr, sg.length.toNat⟩

def setRaddrSeg (rseg : ℕ) (remoteAddr : UInt64) (rkey : UInt32) : Mem :=
  put m rseg (be64 remoteAddr ++ be32 rkey ++ be32 0)

/-- `set_atomic_seg`; of a fetch-and-add only `swap_add` is stored. -/
def setAtomicSeg (aseg : ℕ) (cmpAndSwp : Bool) (swap compareAdd : UInt64) : Mem :=
  if cmpAndSwp then put m aseg (be64 swap ++ be64 compareAdd) else put m aseg (be64 compareAdd)

/-- An address handle's `mlx5_wqe_av` as its 48 bytes, with the destination. -/
structure UdAddr where
  av : List UInt8
  remoteQpn : UInt32
  remoteQkey : UInt32
deriving DecidableEq, Repr

def setDatagramSeg (dseg : ℕ) (ud : UdAddr) : Mem :=
  let m := put m dseg ud.av
  let m := put m (dseg + 8) (be32 (ud.remoteQpn ||| 0x80000000))
  put m dseg (be32 ud.remoteQkey)

def setXrcSeg (xrc : ℕ) (srqn : UInt32) : Mem := put m xrc (be32 srqn)

def dataSeg (byteCount lkey : UInt32) (addr : UInt64) : List UInt8 :=
  be32 byteCount ++ be32 lkey ++ be64 addr

def setDataPtrSeg (dseg : ℕ) (sg : Sge) (offset : ℕ) : Mem :=
  put m dseg (dataSeg (sg.length - UInt32.ofNat offset) sg.lkey (sg.addr + UInt64.ofNat offset))

def setDataPtrSegAtomic (dseg : ℕ) (sg : Sge) : Mem := put m dseg (dataSeg 8 sg.lkey sg.addr)

structure MwAccess where
  localWrite : Bool
  remoteWrite : Bool
  remoteRead : Bool
  remoteAtomic : Bool
  zeroBased : Bool
deriving DecidableEq, Repr

/-- `ibv_mw_bind_info`, with the `lkey` of its memory region. -/
structure BindInfo where
  lkey : UInt32
  addr : UInt64
  length : UInt64
  access : MwAccess
deriving DecidableEq, Repr

def BindInfo.zero : BindInfo := ⟨0, 0, 0, ⟨false, false, false, false, false⟩⟩

inductive MwType
  | type1
  | type2
deriving DecidableEq, Repr

def umrControlFlags (type : MwType) (info : BindInfo) : UInt8 :=
  0x90 ||| (if type = .type2 then if info.length = 0 then 0x08 else 0x20 else 0)

def umrMkeyMask (type : MwType) (info : BindInfo) : UInt64 :=
  0x20002000 ||| (if type = .type2 then 0x4000 else 0) |||
    (if info.length = 0 then 0 else 0x3c0041)

def setUmrControlSeg (ctrl : ℕ) (type : MwType) (info : BindInfo) : Mem :=
  put m ctrl ([umrControlFlags type info, 0, 0, 0] ++
    be16 (if info.length = 0 then 0 else 4) ++ be16 0 ++ be64 (umrMkeyMask type info) ++
    List.replicate 32 0)

def MwAccess.flags (a : MwAccess) : UInt8 :=
  (if a.localWrite then 0x08 else 0) ||| (if a.remoteWrite then 0x20 else 0) |||
    (if a.remoteRead then 0x10 else 0) ||| (if a.remoteAtomic then 0x40 else 0)

def setUmrMkeySeg (mkey : ℕ) (type : MwType) (rkey : UInt32) (info : BindInfo)
    (qpn : UInt32) : Mem :=
  let owner : UInt32 := if type = .type1 ∨ info.length = 0 then 0xFFFFFF00 else qpn <<< 8
  let m := put m (mkey + 4) (be32 ((rkey &&& 0xFF) ||| owner))
  if info.length = 0 then put m mkey [0x40]
  else
    let m := put m (mkey + 2) [info.access.flags]
    let m := put m mkey [0]
    let m := put m (mkey + 16) (be64 (if info.access.zeroBased then 0 else info.addr))
    put m (mkey + 24) (be64 info.length)

def setUmrDataSeg (klm : ℕ) (info : BindInfo) : Mem :=
  put m klm (be32 info.length.toUInt32 ++ be32 info.lkey ++ be64 info.addr ++ List.replicate 48 0)

def calcSig (a n : ℕ) : UInt8 := ~~~ (slice m a n).foldl (· ^^^ ·) 0

/-- `wq_sig`, for a control segment whose `ds` is `size`. -/
def wqSig (ctrl : ℕ) (size : ℕ) : UInt8 := calcSig m ctrl ((size % 64) * 16)

section
variable {x y : UInt32}

@[simp] theorem length_be16 (x : UInt16) : (be16 x).length = 2 := rfl

@[simp] theorem length_be32 (x : UInt32) : (be32 x).length = 4 := rfl

@[simp] theorem length_be64 (x : UInt64) : (be64 x).length = 8 := rfl

@[simp] theorem length_dataSeg (n lkey : UInt32) (addr : UInt64) :
    (dataSeg n lkey addr).length = 16 := rfl

@[simp] theorem length_load (addr : UInt64) (n : ℕ) : (load ram addr n).length = n := by
  simp [load]

theorem beNat_be16 (x : UInt16) : beNat (be16 x) = x.toNat := by
  have hx := x.toNat_lt
  simp only [be16, beNat, foldl_cons, foldl_nil, UInt16.toNat_toUInt8,
    UInt16.toNat_shiftRight, shiftRight_eq_div_pow]
  simp
  omega

theorem beNat_be32 (x : UInt32) : beNat (be32 x) = x.toNat := by
  have hx := x.toNat_lt
  simp only [be32, beNat, foldl_cons, foldl_nil, UInt32.toNat_toUInt8,
    UInt32.toNat_shiftRight, shiftRight_eq_div_pow]
  simp
  omega

theorem load_add (addr : UInt64) (n k : ℕ) :
    load ram addr (n + k) = load ram addr n ++ load ram (addr + UInt64.ofNat n) k := by
  simp only [load, range_add, map_append, map_map]
  congr 1
  refine map_congr_left fun j _ => ?_
  simp [UInt64.ofNat_add, UInt64.add_assoc]

end

structure SgCopyPtr where
  index : ℕ
  offset : ℕ
deriving DecidableEq, Repr

/-- The variables of `copy_eth_inline_headers`; the last two are of the element looked at. -/
structure HeaderCopy where
  mem : Mem
  left : ℕ
  j : ℕ
  length : ℕ
  copied : ℕ

def headerLoop (ram : Ram) (eseg : ℕ) : List DataBuf → HeaderCopy → HeaderCopy
  | [], h => h
  | b :: list, h =>
    if h.left = 0 then h
    else
      let copied := min b.length h.left
      headerLoop ram eseg list
        { mem := put h.mem (eseg + 14 + (18 - h.left)) (load ram b.addr copied)
          left := h.left - copied
          j := h.j + 1
          length := b.length
          copied }

/-- `inline_hdr_sz` and the place where the data segments start. -/
def headerEnd (inlHdrSize eseg : ℕ) (h : HeaderCopy) : Mem × SgCopyPtr :=
  (put h.mem (eseg + 12) (be16 (UInt16.ofNat inlHdrSize)),
    if h.length = h.copied then ⟨h.j + 1, 0⟩ else ⟨h.j, h.copied⟩)

/-- An error leaves what was copied up to then in the segment. -/
def copyEthInlineHeaders (ram : Ram) (inlHdrSize : ℕ) (list : List DataBuf) (m : Mem)
    (eseg : ℕ) : Except (Errno × Mem) (Mem × SgCopyPtr) :=
  match list with
  | [] => .error (.einval, m)
  | b :: tail =>
    if 18 ≤ b.length then
      .ok (headerEnd inlHdrSize eseg
        ⟨put m (eseg + 14) (load ram b.addr inlHdrSize), 0, 0, b.length, inlHdrSize⟩)
    else
      let h := headerLoop ram eseg (b :: tail) ⟨m, inlHdrSize, 0, b.length, 0⟩
      if h.left = 0 then .ok (headerEnd inlHdrSize eseg { h with j := h.j - 1 })
      else .error (.einval, h.mem)

def cat (list : List DataBuf) : List UInt8 := list.flatMap fun b => load ram b.addr b.length

def rest (list : List DataBuf) (p : SgCopyPtr) : List UInt8 :=
  (cat ram (list.drop p.index)).drop p.offset

/-- The header ends in `last`, of which it takes `copied` bytes, behind all of `done`. -/
structure Split (ram : Ram) (size : ℕ) (list done : List DataBuf) (last : DataBuf)
    (tail : List DataBuf) (copied : ℕ) : Prop where
  list : list = done ++ last :: tail
  le : copied ≤ last.length
  size : (cat ram done).length + copied = size

section
variable {ram : Ram} {eseg inlHdrSize : ℕ} {list : List DataBuf} {m m' : Mem} {p : SgCopyPtr}
  {h : HeaderCopy} {i : ℕ}

@[simp] theorem cat_nil : cat ram [] = [] := rfl

@[simp] theorem cat_cons (b : DataBuf) :
    cat ram (b :: list) = load ram b.addr b.length ++ cat ram list := rfl

@[simp] theorem cat_append (list' : List DataBuf) :
    cat ram (list ++ list') = cat ram list ++ cat ram list' := by
  simp [cat]

theorem headerLoop_split (hpos : h.left ≠ 0) (hle : h.left ≤ 18)
    (hdone : (headerLoop ram eseg list h).left = 0) :
    ∃ done last tail copied, Split ram h.left list done last tail copied ∧
      headerLoop ram eseg list h =
        ⟨put h.mem (eseg + 14 + (18 - h.left)) (cat ram done ++ load ram last.addr copied), 0,
          h.j + done.length + 1, last.length, copied⟩ := by
  induction list generalizing h with
  | nil => exact absurd hdone hpos
  | cons b list ih =>
    simp only [headerLoop, if_neg hpos] at hdone ⊢
    by_cases hb : b.length < h.left
    · -- the header goes on behind `b`
      rw [min_eq_left hb.le] at hdone ⊢
      obtain ⟨done, last, tail, copied, hs, he⟩ := ih (by simp only; omega) (by simp only; omega)
        hdone
      refine ⟨b :: done, last, tail, copied, ⟨by rw [hs.list]; rfl, hs.le, ?_⟩, ?_⟩
      · have hsize : _ = h.left - b.length := hs.size
        simp only [cat_cons, length_append, length_load]
        omega
      · have hat : 18 - (h.left - b.length) = 18 - h.left + b.length := by omega
        have hj : h.j + 1 + done.length = h.j + (done.length + 1) := by omega
        rw [cat_cons, append_assoc, put_append, he, length_load]
        simp only [length_cons, hat, hj, add_assoc]
    · refine ⟨[], b, list, h.left, ⟨rfl, by omega, by simp⟩, ?_⟩
      rw [min_eq_right (by omega)]
      cases list with
      | nil => simp [headerLoop]
      | cons b' list => simp [headerLoop]

theorem copyEthInlineHeaders_ok (hsize : inlHdrSize = 0 ∨ inlHdrSize = 18)
    (h : copyEthInlineHeaders ram inlHdrSize list m eseg = .ok (m', p)) :
    ∃ done last tail copied, Split ram inlHdrSize list done last tail copied ∧
      m' = put (put m (eseg + 14) (cat ram done ++ load ram last.addr copied)) (eseg + 12)
        (be16 (UInt16.ofNat inlHdrSize)) ∧
      p = if last.length = copied then ⟨done.length + 1, 0⟩ else ⟨done.length, copied⟩ := by
  cases list with
  | nil => simp [copyEthInlineHeaders] at h
  | cons b tail =>
    simp only [copyEthInlineHeaders] at h
    split at h
    · rename_i hb
      simp only [headerEnd, Except.ok.injEq, Prod.mk.injEq] at h
      exact ⟨[], b, tail, inlHdrSize, ⟨rfl, by omega, by simp⟩, by simp [← h.1], by simp [← h.2]⟩
    · split at h
      · rename_i hleft
        simp only [headerEnd, Except.ok.injEq, Prod.mk.injEq] at h
        obtain rfl | rfl := hsize
        · refine ⟨[], b, tail, 0, ⟨rfl, by omega, by simp⟩, ?_, ?_⟩
          · simp [← h.1, headerLoop, load, put_nil]
          · simp [← h.2, headerLoop]
        · obtain ⟨done, last, tail', copied, hs, he⟩ := headerLoop_split
            (by simp) (by simp) hleft
          refine ⟨done, last, tail', copied, hs, ?_, ?_⟩
          · simp [← h.1, he]
          · simp [← h.2, he]
      · cases h

theorem headerLoop_outside (hle : h.left ≤ 18) (hi : i < eseg + 12 ∨ eseg + 32 ≤ i) :
    (headerLoop ram eseg list h).mem i = h.mem i := by
  induction list generalizing h with
  | nil => rfl
  | cons b list ih =>
    simp only [headerLoop]
    split
    · rfl
    · rw [ih (by simp only; omega)]
      exact put_of_outside (by rw [length_load]; omega)

theorem copyEthInlineHeaders_outside (hsize : inlHdrSize ≤ 18) (hi : i < eseg + 12 ∨ eseg + 32 ≤ i)
    : (∀ m' p, copyEthInlineHeaders ram inlHdrSize list m eseg = .ok (m', p) → m' i = m i) ∧
      ∀ e m', copyEthInlineHeaders ram inlHdrSize list m eseg = .error (e, m') → m' i = m i := by
  have hend (h : HeaderCopy) : (headerEnd inlHdrSize eseg h).1 i = h.mem i :=
    put_of_outside (by rw [length_be16]; omega)
  cases list with
  | nil => simp [copyEthInlineHeaders]
  | cons b tail =>
    have hloop : (headerLoop ram eseg (b :: tail) ⟨m, inlHdrSize, 0, b.length, 0⟩).mem i = m i :=
      headerLoop_outside (by simpa using hsize) hi
    simp only [copyEthInlineHeaders]
    split_ifs
    · refine ⟨fun m' p h => ?_, fun e m' h => by cases h⟩
      obtain rfl : _ = m' := congrArg Prod.fst (Except.ok.inj h)
      rw [hend]
      exact put_of_outside (by rw [length_load]; omega)
    · refine ⟨fun m' p h => ?_, fun e m' h => by cases h⟩
      obtain rfl : _ = m' := congrArg Prod.fst (Except.ok.inj h)
      rwa [hend]
    · refine ⟨fun m' p h => (by cases h), fun e m' h => ?_⟩
      obtain rfl : _ = m' := congrArg Prod.snd (Except.error.inj h)
      exact hloop

theorem Split.append_rest {size copied : ℕ} {done tail : List DataBuf} {last : DataBuf}
    (h : Split ram size list done last tail copied) :
    (cat ram done ++ load ram last.addr copied) ++ rest ram list
      (if last.length = copied then ⟨done.length + 1, 0⟩ else ⟨done.length, copied⟩) =
      cat ram list := by
  have hlast : load ram last.addr last.length = load ram last.addr copied ++
      load ram (last.addr + UInt64.ofNat copied) (last.length - copied) := by
    rw [← load_add, Nat.add_sub_cancel' h.le]
  split
  · rename_i he
    simp [rest, h.list, he]
  · simp [rest, h.list, hlast]

end

end Fusa.Driver.Sq

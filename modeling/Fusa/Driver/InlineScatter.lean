import Mathlib.Data.List.Basic
import Mathlib.Tactic.Linarith

/-! Results of reads and atomics that the RNIC delivers inside the completion. -/
namespace Fusa.Driver.InlineScatter
open List Nat

inductive Opcode
  | rdmaRead
  | atomicCs
  | atomicFa
deriving DecidableEq

/-- `MLX5_INLINE_SCATTER_32` and `MLX5_INLINE_SCATTER_64`. -/
inductive Form
  | scatter32
  | scatter64
deriving DecidableEq

inductive WcStatus
  | success
  | locLenErr
deriving DecidableEq

structure DataSeg where
  byteCount : ℕ
  lkey : ℕ
  addr : ℕ

abbrev Store := ℕ × UInt8

/-- The loop of `copy_to_scat`: the status, the size left and the bytes stored. -/
def scatLoop (dumpFillMkey : ℕ) : List DataSeg → (ℕ → UInt8) → ℕ → WcStatus × ℕ × List Store
  | [], _, size => (.locLenErr, size, [])
  | seg :: scat, buf, size =>
    let copy := min size seg.byteCount
    let stores := if seg.lkey = dumpFillMkey then []
      else (List.range copy).map fun i => (seg.addr + i, buf i)
    if size - copy = 0 then (.success, 0, stores)
    else
      let r := scatLoop dumpFillMkey scat (fun i => buf (copy + i)) (size - copy)
      (r.1, r.2.1, stores ++ r.2.2)

variable (dumpFillMkey : ℕ)

def copyToScat (scat : List DataSeg) (buf : ℕ → UInt8) (size : ℕ) :
    WcStatus × ℕ × List Store :=
  if size = 0 then (.success, 0, []) else scatLoop dumpFillMkey scat buf size

/-- Units of 16 bytes before the data segments: control, remote address, atomic. -/
def Opcode.headerUnits : Opcode → ℕ
  | .rdmaRead => 2
  | .atomicCs | .atomicFa => 3

/-- A work request of an RC send queue: `units` are data segments, and it has `ds` from `idx` on. -/
structure SendWqe where
  wqeCnt : ℕ
  units : ℕ → DataSeg
  idx : ℕ
  opcode : Opcode
  ds : ℕ
  idx_lt : idx < wqeCnt
  header_le : opcode.headerUnits ≤ ds
  ds_le : ds ≤ 4 * wqeCnt

namespace SendWqe
variable (w : SendWqe)

def scat : ℕ := 4 * w.idx + w.opcode.headerUnits

def max : ℕ := w.ds - w.opcode.headerUnits

/-- Data segments as they lie in the buffer from a unit on. -/
def segsFrom (unit n : ℕ) : List DataSeg := (List.range n).map fun i => w.units (unit + i)

def sgList : List DataSeg := (List.range w.max).map fun i => w.units ((w.scat + i) % (4 * w.wqeCnt))

end SendWqe

def copyToSendWqe (w : SendWqe) (buf : ℕ → UInt8) (size : ℕ) :
    WcStatus × List Store :=
  if 4 * w.wqeCnt < w.scat + w.max then
    let tmp := 4 * w.wqeCnt - w.scat
    let r := copyToScat dumpFillMkey (w.segsFrom w.scat tmp) buf size
    if r.1 = .success then (.success, r.2.2)
    else
      let r' := copyToScat dumpFillMkey (w.segsFrom 0 (w.max - tmp))
        (fun i => buf (size - r.2.1 + i)) r.2.1
      (r'.1, r.2.2 ++ r'.2.2)
  else
    let r := copyToScat dumpFillMkey (w.segsFrom w.scat w.max) buf size
    (r.1, r.2.2)

/-- A requester completion: the bytes around it, its start, and its last 64 bytes' fields. -/
structure ReqCqe where
  bytes : ℤ → UInt8
  cqe : ℤ
  cqeSz : ℕ
  form : Form
  byteCnt : ℕ
  opcode : Opcode

namespace ReqCqe
variable (c : ReqCqe)

/-- `mlx5_get_next_cqe`. -/
def cqe64 : ℤ := if c.cqeSz = 64 then c.cqe else c.cqe + 64

/-- Both `handle_good_req` and the lazy branch take the length of an atomic to be 8. -/
def byteLen : ℕ :=
  match c.opcode with
  | .rdmaRead => c.byteCnt
  | .atomicCs | .atomicFa => 8

/-- The pointer of both branches of `mlx5_parse_cqe`; `cqe - 1` of a `void *` is one byte before. -/
def source : ℤ :=
  match c.form with
  | .scatter32 => c.cqe
  | .scatter64 => c.cqe - 1

/-- Where the RNIC puts the data: at the start of a 64-byte completion, or 64 bytes before. -/
def inlineData : ℤ :=
  match c.form with
  | .scatter32 => c.cqe64
  | .scatter64 => c.cqe64 - 64

end ReqCqe

/-- The `MLX5_CQE_REQ` case: the status and the bytes stored in the caller's memory. -/
def parseCqe (c : ReqCqe) (w : SendWqe) (lazy : Bool) :
    WcStatus × List Store :=
  let byteLen := if lazy then
      match c.opcode with
      | .rdmaRead => c.byteCnt
      | .atomicCs | .atomicFa => 8
    else c.byteLen
  copyToSendWqe dumpFillMkey w (fun i => c.bytes (c.source + i)) byteLen

section Delivery
variable (dumpFillMkey : ℕ)

/-- The address of each byte of the segments in order; none for the NULL MR. -/
def targets (segs : List DataSeg) : List (Option ℕ) :=
  segs.flatMap fun seg => (List.range seg.byteCount).map fun i =>
    if seg.lkey = dumpFillMkey then none else some (seg.addr + i)

/-- The first `len` bytes of `data` from the `j`-th on, stored one after another. -/
def storesAt (ts : List (Option ℕ)) (data : ℕ → UInt8) (j : ℕ) : List Store :=
  (ts.zipIdx j).filterMap fun t => t.1.map fun a => (a, data t.2)

/-- The buffers hold `data` in order and nothing else, and the status says if they sufficed. -/
structure Intact (w : SendWqe) (data : ℕ → UInt8) (len : ℕ) (r : WcStatus × List Store) :
    Prop where
  stores : r.2 = storesAt ((targets dumpFillMkey w.sgList).take len) data 0
  status : r.1 = .locLenErr ↔ (targets dumpFillMkey w.sgList).length < len

variable {dumpFillMkey}

theorem storesAt_append (ts us : List (Option ℕ)) (data : ℕ → UInt8) (j : ℕ) :
    storesAt (ts ++ us) data j = storesAt ts data j ++ storesAt us data (j + ts.length) := by
  unfold storesAt
  rw [zipIdx_append, filterMap_append]

theorem storesAt_range (seg : DataSeg) (n : ℕ) (data : ℕ → UInt8) (j : ℕ) :
    storesAt ((List.range n).map fun i =>
      if seg.lkey = dumpFillMkey then none else some (seg.addr + i)) data j =
      if seg.lkey = dumpFillMkey then []
      else (List.range n).map fun i => (seg.addr + i, data (j + i)) := by
  induction n with
  | zero => simp [storesAt]
  | succ n ih =>
    rw [range_succ, map_append, storesAt_append, ih]
    split_ifs with h <;> simp [storesAt]

theorem targets_cons (seg : DataSeg) (segs : List DataSeg) : targets dumpFillMkey (seg :: segs) =
      ((List.range seg.byteCount).map fun i =>
        if seg.lkey = dumpFillMkey then none else some (seg.addr + i)) ++
        targets dumpFillMkey segs := by
  simp [targets]

theorem targets_append (segs segs' : List DataSeg) : targets dumpFillMkey (segs ++ segs') =
      targets dumpFillMkey segs ++ targets dumpFillMkey segs' := by
  simp [targets]

def statusOf (room size : ℕ) : WcStatus := if room < size then .locLenErr else .success

section
variable (segs : List DataSeg) (data : ℕ → UInt8)
include segs data

theorem scatLoop_eq (j size : ℕ) (h : 0 < size) :
    scatLoop dumpFillMkey segs (fun i => data (j + i)) size =
      (statusOf (targets dumpFillMkey segs).length size, size - (targets dumpFillMkey segs).length,
        storesAt ((targets dumpFillMkey segs).take size) data j) := by
  induction segs generalizing j size with
  | nil => simp [scatLoop, targets, statusOf, h, storesAt]
  | cons seg segs ih =>
    have hlen : ((List.range seg.byteCount).map fun i =>
        if seg.lkey = dumpFillMkey then none else some (seg.addr + i)).length =
        seg.byteCount := by simp
    unfold scatLoop
    rw [targets_cons]
    simp only [length_append, hlen, take_append, storesAt_append]
    rcases lt_or_ge seg.byteCount size with hlt | hle
    · -- the segment is filled and the loop goes on behind it
      rw [if_neg (by omega), min_eq_right hlt.le]
      have hrec := ih (j + seg.byteCount) (size - seg.byteCount) (by omega)
      simp only [← add_assoc, hrec, take_of_length_le (hlen.le.trans hlt.le), hlen,
        storesAt_range]
      refine Prod.ext ?_ (Prod.ext ?_ rfl)
      · unfold statusOf
        split_ifs <;> first | rfl | omega
      · simp only
        omega
    · rw [if_pos (by omega), min_eq_left hle, ← map_take, take_range,
        Nat.min_eq_left hle, storesAt_range, Nat.sub_eq_zero_of_le hle, take_zero]
      have hst : statusOf (seg.byteCount + (targets dumpFillMkey segs).length) size =
          .success := if_neg (by omega)
      rw [hst, Nat.sub_eq_zero_of_le (by omega)]
      simp [storesAt]

theorem copyToScat_eq (j size : ℕ) : copyToScat dumpFillMkey segs (fun i => data (j + i)) size =
      (statusOf (targets dumpFillMkey segs).length size, size - (targets dumpFillMkey segs).length,
        storesAt ((targets dumpFillMkey segs).take size) data j) := by
  unfold copyToScat
  split_ifs with h
  · simp [h, statusOf, storesAt]
  · exact scatLoop_eq segs data j size (pos_of_ne_zero h)

theorem copyToScat_zero (size : ℕ) : copyToScat dumpFillMkey segs data size =
      (statusOf (targets dumpFillMkey segs).length size, size - (targets dumpFillMkey segs).length,
        storesAt ((targets dumpFillMkey segs).take size) data 0) := by
  simpa only [zero_add] using copyToScat_eq segs data 0 size

end

end Delivery

namespace SendWqe
variable (w : SendWqe)

theorem scat_lt : w.scat < 4 * w.wqeCnt := by
  have h := w.idx_lt
  have h' : w.opcode.headerUnits < 4 := by cases w.opcode <;> decide
  unfold scat
  omega

theorem sgList_eq (h : 4 * w.wqeCnt < w.scat + w.max) :
    w.sgList = w.segsFrom w.scat (4 * w.wqeCnt - w.scat) ++
      w.segsFrom 0 (w.max - (4 * w.wqeCnt - w.scat)) := by
  have hlt := w.scat_lt
  have hds := w.ds_le
  have hmax : w.max ≤ 4 * w.wqeCnt := (sub_le _ _).trans hds
  have hsplit : w.max = (4 * w.wqeCnt - w.scat) + (w.max - (4 * w.wqeCnt - w.scat)) := by omega
  unfold sgList segsFrom
  rw [hsplit, range_add, map_append, map_map, Nat.add_sub_cancel_left]
  congr 1
  · refine map_congr_left fun i hi => ?_
    have hi := mem_range.mp hi
    rw [mod_eq_of_lt (by omega)]
  · refine map_congr_left fun i hi => ?_
    have hi := mem_range.mp hi
    have hmod : (w.scat + (4 * w.wqeCnt - w.scat + i)) % (4 * w.wqeCnt) = i := by
      have : w.scat + (4 * w.wqeCnt - w.scat + i) = i + 4 * w.wqeCnt := by omega
      rw [this, add_mod_right, mod_eq_of_lt (by omega)]
    simp only [Function.comp_apply, hmod, zero_add]

theorem sgList_eq_of_le (h : w.scat + w.max ≤ 4 * w.wqeCnt) :
    w.sgList = w.segsFrom w.scat w.max := by
  refine map_congr_left fun i hi => ?_
  have hi := mem_range.mp hi
  rw [mod_eq_of_lt (by omega)]

end SendWqe

/-- However the data segments lie in the send queue, they get the data in order. -/
theorem copyToSendWqe_eq (w : SendWqe) (data : ℕ → UInt8) (size : ℕ) :
    copyToSendWqe dumpFillMkey w data size = (statusOf (targets dumpFillMkey w.sgList).length size,
        storesAt ((targets dumpFillMkey w.sgList).take size) data 0) := by
  unfold copyToSendWqe
  split_ifs with hwrap
  · rw [w.sgList_eq hwrap, targets_append]
    simp only [copyToScat_zero _ data, copyToScat_eq, length_append, take_append, storesAt_append]
    generalize w.segsFrom w.scat (4 * w.wqeCnt - w.scat) = segs
    generalize w.segsFrom 0 (w.max - (4 * w.wqeCnt - w.scat)) = segs'
    rcases lt_or_ge (targets dumpFillMkey segs).length size with hlt | hle
    · have hst : statusOf (targets dumpFillMkey segs).length size = .locLenErr := if_pos hlt
      rw [hst, if_neg (by decide), take_of_length_le hlt.le, Nat.sub_sub_self hlt.le, Nat.zero_add]
      refine Prod.ext ?_ rfl
      unfold statusOf
      split_ifs <;> first | rfl | omega
    · have hst : statusOf (targets dumpFillMkey segs).length size = .success :=
        if_neg (not_lt.mpr hle)
      have hst' : statusOf ((targets dumpFillMkey segs).length +
          (targets dumpFillMkey segs').length) size = .success := if_neg (by omega)
      rw [if_pos hst, hst', Nat.sub_eq_zero_of_le hle]
      simp [storesAt]
  · rw [w.sgList_eq_of_le (by omega)]
    simp only [copyToScat_zero]

/-- The two places hold the same bytes, as far as they are stored. -/
def SameBytes (c : ReqCqe) (w : SendWqe) : Prop :=
  ∀ k < c.byteLen, ∀ a, (targets dumpFillMkey w.sgList)[k]? = some (some a) →
    c.bytes (c.source + k) = c.bytes (c.inlineData + k)

theorem storesAt_cons (t : Option ℕ) (ts : List (Option ℕ)) (data : ℕ → UInt8) (j : ℕ) :
    storesAt (t :: ts) data j =
      (t.map fun a => (a, data j)).toList ++ storesAt ts data (j + 1) := by
  cases t <;> simp [storesAt]

theorem storesAt_inj {ts : List (Option ℕ)} {data data' : ℕ → UInt8} {j : ℕ} :
    storesAt ts data j = storesAt ts data' j ↔
      ∀ k a, ts[k]? = some (some a) → data (j + k) = data' (j + k) := by
  induction ts generalizing j with
  | nil => simp [storesAt]
  | cons t ts ih =>
    rw [storesAt_cons, storesAt_cons]
    constructor
    · intro h k a hk
      obtain ⟨h0, h1⟩ := append_inj h (by cases t <;> simp)
      have h1 := ih.mp h1
      cases k with
      | zero =>
        obtain rfl : t = some a := by simpa using hk
        simpa using h0
      | succ k =>
        have := h1 k a (by simpa using hk)
        rwa [add_right_comm] at this
    · intro h
      refine congrArg₂ _ ?_ (ih.mpr fun k a hk => ?_)
      · cases t with
        | none => rfl
        | some a =>
          have := h 0 a (by simp)
          simp only [add_zero] at this
          simp [this]
      · have := h (k + 1) a (by simpa using hk)
        rwa [add_right_comm]

theorem parseCqe_eq (c : ReqCqe) (w : SendWqe) (lazy : Bool) : parseCqe dumpFillMkey c w lazy =
      (statusOf (targets dumpFillMkey w.sgList).length c.byteLen,
        storesAt ((targets dumpFillMkey w.sgList).take c.byteLen)
          (fun i => c.bytes (c.source + i)) 0) := by
  unfold parseCqe
  rw [copyToSendWqe_eq]
  cases lazy <;> rfl

/-- Results reach the buffers exactly for 64-byte completions with 32 bytes, or by equal bytes. -/
theorem parseCqe_intact_iff (c : ReqCqe) (w : SendWqe) (lazy : Bool) :
    Intact dumpFillMkey w (fun i => c.bytes (c.inlineData + i)) c.byteLen
      (parseCqe dumpFillMkey c w lazy) ↔
      c.cqeSz = 64 ∧ c.form = .scatter32 ∨ SameBytes dumpFillMkey c w := by
  have hstores : Intact dumpFillMkey w (fun i => c.bytes (c.inlineData + i)) c.byteLen
      (parseCqe dumpFillMkey c w lazy) ↔ SameBytes dumpFillMkey c w := by
    rw [parseCqe_eq]
    constructor
    · intro h k hk a ha
      have hs : storesAt ((targets dumpFillMkey w.sgList).take c.byteLen)
          (fun i => c.bytes (c.source + i)) 0 = _ := h.stores
      have := storesAt_inj.mp hs k a (by rwa [List.getElem?_take_of_lt hk])
      simpa using this
    · intro h
      refine ⟨?_, ?_⟩
      · simp only
        refine storesAt_inj.mpr fun k a hk => ?_
        have hlt : k < c.byteLen := by
          by_contra hge
          simp [hge] at hk
        rw [List.getElem?_take_of_lt hlt] at hk
        simpa using h k hlt a hk
      · unfold statusOf
        split_ifs with hlt <;> simp [hlt]
  rw [hstores]
  refine ⟨.inr, fun h => h.elim (fun ⟨hsz, hform⟩ k _ a _ => ?_) id⟩
  simp [ReqCqe.source, ReqCqe.inlineData, ReqCqe.cqe64, hsz, hform]

def wrappedCas : SendWqe where
  wqeCnt := 2
  units i := if i = 7 then ⟨8, 1, 4096⟩ else ⟨0, 0, 0⟩
  idx := 1
  opcode := .atomicCs
  ds := 4
  idx_lt := by decide
  header_le := by decide
  ds_le := by decide

def bigCqe : ReqCqe where
  bytes i := if i = 128 + 64 then 7 else 0
  cqe := 128
  cqeSz := 128
  form := .scatter32
  byteCnt := 8
  opcode := .atomicCs

theorem parseCqe_bigCqe : (parseCqe 0 bigCqe wrappedCas false).2.head? = some (4096, 0) ∧
    bigCqe.bytes bigCqe.inlineData = 7 ∧
    ¬ Intact 0 wrappedCas (fun i => bigCqe.bytes (bigCqe.inlineData + i)) bigCqe.byteLen
      (parseCqe 0 bigCqe wrappedCas false) := by
  refine ⟨by decide, by decide, fun h => ?_⟩
  have hs := congrArg List.head? h.stores
  revert hs
  decide

end Fusa.Driver.InlineScatter

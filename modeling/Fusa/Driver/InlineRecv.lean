import Fusa.Driver.InlineScatter
import Mathlib.Data.Nat.Size

/-! Receives whose data comes inside the completion: `mlx5_copy_to_recv_wqe` and
`mlx5_copy_to_recv_srq`. -/
namespace Fusa.Driver.InlineScatter
open List Nat

inductive RecvKind
  | qp (wqSig : Bool)
  | srq
deriving DecidableEq

/-- A receive queue or SRQ that was created for `maxSge` SGEs. -/
structure RecvQueue where
  kind : RecvKind
  maxSge : ℕ

namespace RecvQueue
variable (q : RecvQueue)

/-- Units of 16 bytes before the scatter entries: the signature or the next segment. -/
def header : ℕ := if q.kind = .qp false then 0 else 1

/-- `mlx5_calc_rcv_wqe` and `mlx5_alloc_srq_buf`, before the size is rounded up. -/
def minSize : ℕ :=
  match q.kind with
  | .qp wqSig => 16 * max q.maxSge 1 + if wqSig then 16 else 0
  | .srq => max 32 (16 + q.maxSge * 16)

/-- `ilog32(size - 1)` of the size rounded up to a power of two. -/
def wqeShift : ℕ := Nat.size (q.minSize - 1)

def maxGs : ℕ := (2 ^ q.wqeShift - 16 * q.header) / 16

/-- How many scatter entries both copies go through: as many as the WQE has units. -/
def max : ℕ := 1 <<< (q.wqeShift - 4)

/-- The SGEs that get a scatter entry: `mlx5_post_recv` leaves out the empty ones. -/
def posted (sgList : List DataSeg) : List DataSeg :=
  if q.kind = .srq then sgList else sgList.filter (·.byteCount ≠ 0)

/-- With a signature the WQE is cleared before it is written. -/
def cleared (old : List DataSeg) : List DataSeg :=
  if q.kind = .qp true then old.map fun _ => ⟨0, 0, 0⟩ else old

/-- The scatter entries of a WQE that held `old` after a receive is posted to it. -/
def post (old sgList : List DataSeg) : List DataSeg :=
  if (q.posted sgList).length < q.maxGs then
    q.posted sgList ++ ⟨0, 0x100, 0⟩ :: (q.cleared old).drop ((q.posted sgList).length + 1)
  else q.posted sgList

end RecvQueue

/-- The loop of `mlx5_copy_to_recv_srq`: the status and the bytes stored. -/
def srqLoop : List DataSeg → (ℕ → UInt8) → ℕ → WcStatus × List Store
  | [], _, _ => (.locLenErr, [])
  | seg :: scat, buf, size =>
    let copy := min size seg.byteCount
    let stores := (List.range copy).map fun i => (seg.addr + i, buf i)
    if size - copy = 0 then (.success, stores)
    else
      let r := srqLoop scat (fun i => buf (copy + i)) (size - copy)
      (r.1, stores ++ r.2)

/-- How many scatter entries either loop reads. -/
def entriesRead : List DataSeg → ℕ → ℕ
  | [], _ => 0
  | seg :: scat, size =>
    let copy := min size seg.byteCount
    if size - copy = 0 then 1 else entriesRead scat (size - copy) + 1

structure RecvCopy where
  status : WcStatus
  stores : List Store
  read : ℕ

/-- `mlx5_copy_to_recv_srq` or `_wqe`; `scat` is the memory from the WQE's first entry on. -/
def copyToRecv (dumpFillMkey : ℕ) (q : RecvQueue) (scat : List DataSeg) (buf : ℕ → UInt8)
    (size : ℕ) : RecvCopy :=
  if q.kind = .srq then
    ⟨(srqLoop (scat.take q.max) buf size).1, (srqLoop (scat.take q.max) buf size).2,
      entriesRead (scat.take q.max) size⟩
  else
    ⟨(copyToScat dumpFillMkey (scat.take q.max) buf size).1,
      (copyToScat dumpFillMkey (scat.take q.max) buf size).2.2,
      if size = 0 then 0 else entriesRead (scat.take q.max) size⟩

/-- The SGEs hold the data's first bytes, nothing else is written or read beyond the WQE, and the
status says whether they were long enough. -/
structure Received (dumpFillMkey : ℕ) (q : RecvQueue) (sgList : List DataSeg) (data : ℕ → UInt8)
    (size : ℕ) (r : RecvCopy) : Prop where
  stores : r.stores = storesAt ((targets dumpFillMkey sgList).take size) data 0
  inside : r.read ≤ q.maxGs
  status : r.status = .locLenErr ↔ (targets dumpFillMkey sgList).length < size

/-- The SGEs are long enough, for an SRQ without the NULL MR; or the WQE has no header, and what it
held behind the new end mark takes no byte and leaves the list too short. -/
def Deliverable (dumpFillMkey : ℕ) (q : RecvQueue) (old sgList : List DataSeg) (size : ℕ) : Prop :=
  let room := targets dumpFillMkey sgList
  let stale := targets dumpFillMkey (old.drop ((q.posted sgList).length + 1))
  size ≤ room.length ∧ (q.kind = .srq → none ∉ room.take size) ∨
    q.kind = .qp false ∧ (∀ t ∈ stale, t = none) ∧ room.length + stale.length < size

namespace RecvQueue
variable {q : RecvQueue}

theorem header_add_maxGs (q : RecvQueue) : q.header + q.maxGs = q.max ∧ 0 < q.maxGs := by
  have hshift : q.header + 4 ≤ q.wqeShift := by
    unfold header wqeShift minSize
    refine lt_size.mpr ?_
    rcases q.kind with (_ | _) | _ <;> simp <;> omega
  have hlt : q.header < q.max := by
    unfold max
    rw [one_shiftLeft]
    exact Nat.lt_two_pow_self.trans_le
      (Nat.pow_le_pow_right (by decide) (Nat.le_sub_of_add_le hshift))
  have hpow : 2 ^ q.wqeShift = 16 * q.max := by
    unfold max
    rw [one_shiftLeft, show (16 : ℕ) = 2 ^ 4 by rfl, ← pow_add,
      Nat.add_sub_cancel' ((Nat.le_add_left 4 _).trans hshift)]
  unfold maxGs
  omega

theorem length_posted_le (q : RecvQueue) (sgList : List DataSeg) :
    (q.posted sgList).length ≤ sgList.length := by
  unfold posted
  split_ifs
  · rfl
  · exact length_filter_le _ _

end RecvQueue

section Loops
variable {d : ℕ}

theorem targets_posted (q : RecvQueue) (sgList : List DataSeg) :
    targets d (q.posted sgList) = targets d sgList := by
  unfold RecvQueue.posted
  split_ifs
  · rfl
  · induction sgList with
    | nil => rfl
    | cons seg segs ih =>
      rw [filter_cons]
      split_ifs with h
      · rw [targets_cons, targets_cons, ih]
      · have h0 : seg.byteCount = 0 := by simpa using h
        rw [ih, targets_cons, h0]
        rfl

theorem length_targets_cons (seg : DataSeg) (segs : List DataSeg) :
    (targets d (seg :: segs)).length = seg.byteCount + (targets d segs).length := by
  simp [targets_cons]

section
variable (segs : List DataSeg) (buf : ℕ → UInt8) (size : ℕ)
include segs buf size

theorem srqLoop_fst : (srqLoop segs buf size).1 = (scatLoop d segs buf size).1 := by
  induction segs generalizing buf size with
  | nil => rfl
  | cons seg segs ih =>
    unfold srqLoop scatLoop
    simp only [apply_ite Prod.fst, ih]

theorem length_srqLoop : (srqLoop segs buf size).2.length = min size (targets d segs).length := by
  induction segs generalizing buf size with
  | nil => simp [srqLoop, targets]
  | cons seg segs ih =>
    unfold srqLoop
    rw [length_targets_cons]
    simp only
    split_ifs with h
    · simp only [length_map, length_range]
      omega
    · simp only [length_append, length_map, length_range, ih]
      omega

/-- Where no byte falls to the NULL MR, both loops do the same. -/
theorem srqLoop_eq (h : none ∉ (targets d segs).take size) :
    (srqLoop segs buf size).2 = (scatLoop d segs buf size).2.2 := by
  induction segs generalizing buf size with
  | nil => rfl
  | cons seg segs ih =>
    rw [targets_cons, take_append, mem_append, not_or] at h
    have hst : (if seg.lkey = d then []
        else (List.range (min size seg.byteCount)).map fun i => (seg.addr + i, buf i)) =
        (List.range (min size seg.byteCount)).map fun i => (seg.addr + i, buf i) := by
      split_ifs with hd
      · have hz : min size seg.byteCount = 0 := by
          by_contra hpos
          refine h.1 (mem_iff_getElem.mpr ⟨0, ?_, ?_⟩)
          · simp; omega
          · simp [hd]
        rw [hz]
        rfl
      · rfl
    unfold srqLoop scatLoop
    simp only [hst]
    split_ifs with hz
    · rfl
    · simp only
      rw [ih]
      simpa [show min size seg.byteCount = seg.byteCount by omega] using h.2

end

/-- The loops read all entries of a list that is too short, and else only those they need. -/
theorem entriesRead_spec (segs rest : List DataSeg) (size : ℕ) :
    entriesRead segs size ≤ segs.length ∧
    ((targets d segs).length < size → entriesRead segs size = segs.length) ∧
    (0 < size → size ≤ (targets d segs).length →
      entriesRead (segs ++ rest) size ≤ segs.length) := by
  induction segs generalizing size with
  | nil => exact ⟨le_rfl, fun _ => rfl, fun h h' => absurd h' (by simpa [targets] using h.ne')⟩
  | cons seg segs ih =>
    obtain ⟨hle, hall, hpart⟩ := ih (size - min size seg.byteCount)
    rw [length_targets_cons, cons_append, entriesRead, entriesRead, length_cons]
    refine ⟨?_, fun h => ?_, fun hpos h => ?_⟩
    · split_ifs <;> omega
    · rw [if_neg (by omega), hall (by omega)]
    · split_ifs with hz
      · omega
      · have := hpart (by omega) (by omega)
        omega

variable {ts : List (Option ℕ)} {data : ℕ → UInt8} {j : ℕ}

theorem storesAt_eq_nil : storesAt ts data j = [] ↔ ∀ t ∈ ts, t = none := by
  induction ts generalizing j with
  | nil => simp [storesAt]
  | cons t ts ih =>
    rw [storesAt_cons]
    cases t <;> simp [ih]

theorem length_storesAt_lt (h : none ∈ ts) : (storesAt ts data j).length < ts.length := by
  obtain ⟨us, vs, rfl⟩ := append_of_mem h
  have hle : ∀ us k, (storesAt us data k).length ≤ us.length := fun us k => by
    simpa [storesAt] using (us.zipIdx k).length_filterMap_le _
  have h1 := hle us j
  have h2 := hle vs (j + us.length + 1)
  rw [storesAt_append, storesAt_cons]
  simp
  omega

end Loops

section Received
variable {d size : ℕ} {q : RecvQueue} {old next sgList scat : List DataSeg} {data : ℕ → UInt8}

theorem copyToRecv_status (hne : scat.take q.max ≠ []) : (copyToRecv d q scat data size).status =
      statusOf (targets d (scat.take q.max)).length size := by
  have hcopy : copyToScat d _ _ _ = _ := copyToScat_zero (scat.take q.max) data size
  unfold copyToRecv
  split_ifs with hk h0
  · rcases Nat.eq_zero_or_pos size with rfl | hpos
    · obtain ⟨seg, segs, h⟩ := exists_cons_of_ne_nil hne
      simp [h, srqLoop, statusOf]
    · rw [copyToScat, if_neg hpos.ne'] at hcopy
      simp only [srqLoop_fst (d := d), hcopy]
  all_goals simp only [hcopy]

theorem copyToRecv_stores (hnull : q.kind = .srq → none ∉ (targets d (scat.take q.max)).take size) :
    (copyToRecv d q scat data size).stores =
      storesAt ((targets d (scat.take q.max)).take size) data 0 := by
  have hcopy : copyToScat d _ _ _ = _ := copyToScat_zero (scat.take q.max) data size
  unfold copyToRecv
  split_ifs with hk h0
  · rcases Nat.eq_zero_or_pos size with rfl | hpos
    · exact eq_nil_of_length_eq_zero (by simp [length_srqLoop (d := d)])
    · rw [copyToScat, if_neg hpos.ne'] at hcopy
      simp only [srqLoop_eq _ _ _ (hnull hk), hcopy]
  all_goals simp only [hcopy]

theorem copyToRecv_read (hpos : 0 < size) :
    (copyToRecv d q scat data size).read = entriesRead (scat.take q.max) size := by
  unfold copyToRecv
  rw [if_neg hpos.ne']
  split_ifs <;> rfl

theorem copyToRecv_read_zero : (copyToRecv d q scat data 0).read ≤ 1 := by
  unfold copyToRecv
  rw [if_pos rfl]
  split_ifs
  · cases scat.take q.max <;> simp [entriesRead]
  · exact zero_le 1

/-- What the copy finds: the posted entries, the rest of the WQE, the next one's header. -/
theorem entries_eq (hle : sgList.length ≤ q.maxGs) (hold : old.length = q.maxGs)
    (hnext : q.header ≤ next.length) : ∃ rest,
    (q.post old sgList ++ next).take q.max = q.posted sgList ++ rest ∧
      (q.posted sgList ++ rest).length = q.max ∧ (q.kind = .qp false →
        targets d rest = targets d (old.drop ((q.posted sgList).length + 1))) := by
  obtain ⟨hgs, -⟩ := q.header_add_maxGs
  have hlen := hle.trans' (q.length_posted_le sgList)
  have hpost : (q.post old sgList).length = q.maxGs ∧ q.posted sgList <+: q.post old sgList := by
    have hclear : (q.cleared old).length = q.maxGs := by
      unfold RecvQueue.cleared
      split_ifs <;> simp [hold]
    unfold RecvQueue.post
    split_ifs
    · simp; omega
    · exact ⟨by omega, prefix_rfl⟩
  obtain ⟨tail, htail⟩ := hpost.2
  refine ⟨tail ++ next.take q.header, ?_, ?_, fun hk => ?_⟩
  · rw [← append_assoc, htail, take_append, take_of_length_le (by omega),
      hpost.1, ← hgs, Nat.add_sub_cancel]
  · rw [← append_assoc, htail, length_append, hpost.1, length_take,
      min_eq_left hnext, add_comm, hgs]
  · unfold RecvQueue.post at htail
    rw [RecvQueue.header, if_pos hk, take_zero, append_nil]
    have hclear : q.cleared old = old := if_neg (by simp [hk])
    rw [hclear] at htail
    split_ifs at htail with hlt
    · rw [append_cancel_left htail, targets_cons]
      rfl
    · rw [append_right_eq_self.mp htail, drop_of_length_le (by omega)]

/-- The data stays in the posted buffers exactly under the condition. -/
theorem received_iff (d : ℕ) (q : RecvQueue) (old sgList next : List DataSeg) (data : ℕ → UInt8)
    (size : ℕ) (hle : sgList.length ≤ q.maxGs) (hold : old.length = q.maxGs)
    (hnext : q.header ≤ next.length) :
    Received d q sgList data size (copyToRecv d q (q.post old sgList ++ next) data size) ↔
      Deliverable d q old sgList size := by
  obtain ⟨rest, hent, hlen, hrest⟩ := entries_eq (d := d) hle hold hnext
  obtain ⟨hgs, hpos⟩ := q.header_add_maxGs
  have hposted := hle.trans' (q.length_posted_le sgList)
  have htargets : targets d ((q.post old sgList ++ next).take q.max) =
      targets d sgList ++ targets d rest := by rw [hent, targets_append, targets_posted]
  have hstatus : (copyToRecv d q (q.post old sgList ++ next) data size).status =
      statusOf ((targets d sgList).length + (targets d rest).length) size := by
    rw [copyToRecv_status (d := d), htargets, length_append]
    rw [hent]
    exact ne_nil_of_length_pos (by omega)
  have hspec := entriesRead_spec (d := d) (q.posted sgList) rest size
  have hall := entriesRead_spec (d := d) (q.posted sgList ++ rest) [] size
  rw [targets_posted] at hspec
  rw [hlen, targets_append, targets_posted, length_append] at hall
  unfold Deliverable
  rcases lt_or_ge (targets d sgList).length size with hlt | hge
  · -- the loop goes on behind the posted entries
    have hread : (copyToRecv d q (q.post old sgList ++ next) data size).read = _ :=
      copyToRecv_read (by omega)
    rw [hent] at hread
    constructor
    · intro h
      have hshort : (targets d sgList).length + (targets d rest).length < size := by
        have := hstatus.symm.trans (h.status.mpr hlt)
        by_contra hn
        rw [statusOf, if_neg hn] at this
        cases this
      have hk : q.kind = .qp false := by
        by_contra hk
        have hin := h.inside
        rw [hread, hall.2.1 hshort, ← hgs, RecvQueue.header, if_neg hk] at hin
        omega
      have hst := h.stores
      rw [copyToRecv_stores (d := d) (by simp [hk]), htargets, take_of_length_le hlt.le,
        take_of_length_le (by simp; omega), storesAt_append] at hst
      rw [hrest hk] at hst hshort
      exact .inr ⟨hk, storesAt_eq_nil.mp (append_right_eq_self.mp hst), hshort⟩
    · rintro (⟨h, -⟩ | ⟨hk, hnone, hshort⟩)
      · omega
      · rw [← hrest hk] at hnone hshort
        refine ⟨?_, ?_, ?_⟩
        · rw [copyToRecv_stores (d := d) (by simp [hk]), htargets, take_of_length_le hlt.le,
            take_of_length_le (by simp; omega), storesAt_append, storesAt_eq_nil.mpr hnone,
            append_nil]
        · rw [hread, hall.2.1 hshort, ← hgs, RecvQueue.header, if_pos hk, zero_add]
        · simp [hstatus, statusOf, hshort, hlt]
  · have htake : (targets d ((q.post old sgList ++ next).take q.max)).take size =
        (targets d sgList).take size := by
      rw [htargets, take_append_of_le_length hge]
    constructor
    · intro h
      refine .inl ⟨hge, fun hk hnull => ?_⟩
      have hst := congrArg List.length h.stores
      rw [copyToRecv, if_pos hk] at hst
      simp only [length_srqLoop (d := d), htargets, length_append] at hst
      have hfew : (storesAt _ data 0).length < _ := length_storesAt_lt hnull
      simp at hfew
      omega
    · rintro (⟨-, hnull⟩ | ⟨-, -, h⟩)
      · refine ⟨?_, ?_, ?_⟩
        · rw [← htake] at hnull ⊢
          exact copyToRecv_stores hnull
        · rcases Nat.eq_zero_or_pos size with rfl | hsize
          · exact copyToRecv_read_zero.trans hpos
          · rw [copyToRecv_read hsize, hent]
            exact (hspec.2.2 hsize hge).trans hposted
        · simp [hstatus, statusOf]
          omega
      · omega

end Received

def threeSges : RecvQueue := ⟨.srq, 3⟩

def fullBefore : List DataSeg := [⟨8, 1, 100⟩, ⟨8, 1, 150⟩, ⟨8, 1, 200⟩]

def inlineCopy (size : ℕ) : RecvCopy :=
  copyToRecv 0 threeSges (threeSges.post fullBefore [⟨8, 1, 300⟩] ++ [⟨0, 0, 0⟩])
    (fun i => .ofNat i) size

theorem received_oneSge : Received 0 threeSges [⟨8, 1, 300⟩] (fun i => .ofNat i) 8 (inlineCopy 8) :=
  (received_iff 0 threeSges fullBefore [⟨8, 1, 300⟩] [⟨0, 0, 0⟩] (fun i => .ofNat i) 8
    (by decide +kernel) (by decide +kernel) (by decide)).mpr (.inl ⟨by decide, by decide⟩)

/-- Sixteen bytes for a receive of eight: the rest goes to an earlier buffer, with good status. -/
theorem not_received_oneSge : [(⟨8, 1, 300⟩ : DataSeg)].length ≤ threeSges.maxGs ∧
    fullBefore.length = threeSges.maxGs ∧ (inlineCopy 16).stores.getLast? = some (207, 15) ∧
    ¬ Received 0 threeSges [⟨8, 1, 300⟩] (fun i => .ofNat i) 16 (inlineCopy 16) := by
  refine ⟨by decide +kernel, by decide +kernel, by decide +kernel, fun h => ?_⟩
  have hst : (inlineCopy 16).status = .success := by decide +kernel
  have := h.status.mpr (by decide)
  rw [hst] at this
  cases this

end Fusa.Driver.InlineScatter

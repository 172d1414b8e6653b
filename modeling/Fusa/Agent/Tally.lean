import Fusa.Agent.Strategy

/-! What the scan of `server_func` adds up over the reports of a phase. -/
namespace Fusa.Agent
open Function List

namespace Report

def total (r : Report) : UInt64 := ∑ j ∈ Finset.range groupSize, r.counters j

def onload (r : Report) : UInt64 := ∑ j ∈ Finset.range groupSize, r.cCounters j

def slotReq (v : ℕ → UInt64) (n k : ℕ) : UInt64 :=
  ∑ j ∈ Finset.range n, if j % maxCounterNum = k then v j else 0

def busiest (v : ℕ → UInt64) : ℕ → UInt64 × UInt64
  | 0 => (0, 0)
  | j + 1 =>
    let (sum, top) := busiest v j
    if j ≠ 0 ∧ j % slotGranularity = 0 then (0, if sum + v j > top then sum + v j else top)
    else (sum + v j, top)

def stat (r : Report) (n : ℕ) : MachineStat :=
  ⟨true, ∑ j ∈ Finset.range n, r.counters j, ∑ j ∈ Finset.range n, r.cCounters j,
    (busiest r.counters n).2⟩

/-- No slot of the machine has more than twice its average, and none is on the CPU. -/
def Uniform (r : Report) : Prop :=
  (r.stat groupSize).maxReq ≤ (r.stat groupSize).reqPerSlot / 8192 * 2 ∧
    (r.stat groupSize).onloadReq = 0
deriving Decidable

end Report

namespace Tally
open Report
variable (t : Tally) (i : ℕ) (r : Report) (n : ℕ)

theorem entries_succ : t.entries i r (n + 1) =
    (t.entries i r n).entry i n (r.counters n) (r.cCounters n) := by
  simp [entries, range_succ]

@[simp] theorem entries_scannedCnt : (t.entries i r n).scannedCnt = t.scannedCnt := by
  induction n with
  | zero => rfl
  | succ n ih => rw [entries_succ, ← ih]; rfl

section
variable {f : Tally → UInt64}

theorem entries_sum {v : ℕ → UInt64}
    (hf : ∀ t j, f (entry i j (r.counters j) (r.cCounters j) t) = f t + v j) :
    f (t.entries i r n) = f t + ∑ j ∈ Finset.range n, v j := by
  induction n with
  | zero => simp [entries]
  | succ n ih => rw [entries_succ, hf, ih, Finset.sum_range_succ, add_assoc]

theorem entries_cell {k : ℕ} {v : UInt64}
    (hf : ∀ t j, f (entry i j (r.counters j) (r.cCounters j) t) =
      if j = k then (if t.scannedCnt = 0 then v else f t + v) else f t) : f (t.entries i r n) =
      if k < n then (if t.scannedCnt = 0 then v else f t + v) else f t := by
  induction n with
  | zero => simp [entries]
  | succ n ih =>
    rw [entries_succ, hf, entries_scannedCnt, ih]
    by_cases hk : n = k
    · simp [hk]
    · have : k < n + 1 ↔ k < n := by omega
      simp [hk, this]

end

theorem update_add_eq (f : ℕ → UInt64) (a : ℕ) (v : UInt64) (k : ℕ) :
    update f a (f a + v) k = f k + if a = k then v else 0 := by
  by_cases h : k = a
  · subst h
    simp
  · simp [h, Ne.symm h]

variable (k : ℕ)

theorem entries_realCounters :
    (t.entries i r n).realCounters k = t.realCounters k + slotReq r.counters n k :=
  entries_sum (f := fun t => t.realCounters k) t i r n fun _ _ => update_add_eq _ _ _ k

theorem entries_realCCounters :
    (t.entries i r n).realCCounters k = t.realCCounters k + slotReq r.cCounters n k :=
  entries_sum (f := fun t => t.realCCounters k) t i r n fun _ _ => update_add_eq _ _ _ k

theorem entries_counters : (t.entries i r n).counters k =
      if k < n then (if t.scannedCnt = 0 then r.counters k else t.counters k + r.counters k)
      else t.counters k := by
  refine entries_cell (f := fun t => t.counters k) t i r n fun t j => ?_
  by_cases hk : j = k
  · simp [entry, hk]
  · simp [entry, hk, Ne.symm hk]

theorem entries_cCounters : (t.entries i r n).cCounters k =
      if k < n then (if t.scannedCnt = 0 then r.cCounters k else t.cCounters k + r.cCounters k)
      else t.cCounters k := by
  refine entries_cell (f := fun t => t.cCounters k) t i r n fun t j => ?_
  by_cases hk : j = k
  · simp [entry, hk]
  · simp [entry, hk, Ne.symm hk]

theorem entries_machine (h : t.machine i = ⟨true, 0, 0, 0⟩) (h0 : t.tmpSlotReq = 0) :
    (t.entries i r n).tmpSlotReq = (busiest r.counters n).1 ∧
      (t.entries i r n).machine = update t.machine i (r.stat n) := by
  induction n with
  | zero =>
    constructor
    · simpa [entries, busiest] using h0
    · simp [entries, busiest, stat, ← h]
  | succ n ih =>
    obtain ⟨hs, hm⟩ := ih
    rw [entries_succ]
    simp only [entry, hs, hm, update_self, update_idem, Finset.sum_range_succ, busiest, stat]
    by_cases hend : n ≠ 0 ∧ n % slotGranularity = 0 <;> simp [hend]

section
variable {t}

theorem enter_realCounters : (t.enter i).realCounters k =
    if t.scannedCnt = 0 then 0 else t.realCounters k := by
  unfold enter
  by_cases h : t.scannedCnt = 0
  · simp only [h, if_true]
  · simp only [h, if_false]

theorem enter_realCCounters : (t.enter i).realCCounters k =
    if t.scannedCnt = 0 then 0 else t.realCCounters k := by
  unfold enter
  by_cases h : t.scannedCnt = 0
  · simp only [h, if_true]
  · simp only [h, if_false]

@[simp] theorem leave_realCounters : t.leave.realCounters = t.realCounters := rfl

@[simp] theorem leave_realCCounters : t.leave.realCCounters = t.realCCounters := rfl

@[simp] theorem leave_ttRnicReq : t.leave.ttRnicReq = t.ttRnicReq := rfl

@[simp] theorem leave_ttCpuReq : t.leave.ttCpuReq = t.ttCpuReq := rfl

@[simp] theorem leave_machine : t.leave.machine = t.machine := rfl

@[simp] theorem leave_counters : t.leave.counters = t.counters := rfl

@[simp] theorem leave_cCounters : t.leave.cCounters = t.cCounters := rfl

theorem scan_realCounters : (t.scan i r).realCounters k =
    (if t.scannedCnt = 0 then 0 else t.realCounters k) + slotReq r.counters groupSize k := by
  rw [scan, leave_realCounters, entries_realCounters, enter_realCounters]

theorem scan_realCCounters : (t.scan i r).realCCounters k =
    (if t.scannedCnt = 0 then 0 else t.realCCounters k) + slotReq r.cCounters groupSize k := by
  rw [scan, leave_realCCounters, entries_realCCounters, enter_realCCounters]

theorem scan_ttRnicReq : (t.scan i r).ttRnicReq = t.ttRnicReq + r.total := by
  rw [scan, leave_ttRnicReq, entries_sum (f := ttRnicReq) (v := r.counters) _ _ _ _ fun _ _ => rfl]
  rfl

theorem scan_ttCpuReq : (t.scan i r).ttCpuReq = t.ttCpuReq + r.onload := by
  rw [scan, leave_ttCpuReq, entries_sum (f := ttCpuReq) (v := r.cCounters) _ _ _ _ fun _ _ => rfl]
  rfl

theorem scan_machine : (t.scan i r).machine = update t.machine i (r.stat groupSize) := by
  have h := (entries_machine (t.enter i) i r groupSize (by simp [enter]) rfl).2
  rw [scan, leave_machine, h, enter, update_idem]

theorem scan_counters {k : ℕ} (hk : k < groupSize) :
    (t.scan i r).counters k = (if t.scannedCnt = 0 then 0 else t.counters k) + r.counters k := by
  rw [scan, leave_counters, entries_counters, if_pos hk, ite_add, zero_add]
  rfl

theorem scan_cCounters {k : ℕ} (hk : k < groupSize) :
    (t.scan i r).cCounters k = (if t.scannedCnt = 0 then 0 else t.cCounters k) + r.cCounters k := by
  rw [scan, leave_cCounters, entries_cCounters, if_pos hk, ite_add, zero_add]
  rfl

@[simp] theorem scan_scannedCnt : (t.scan i r).scannedCnt = t.scannedCnt + 1 := by
  unfold scan leave
  rw [entries_scannedCnt]
  rfl

end

theorem machineIsUniform_iff : t.machineIsUniform false i = true ↔
    (t.machine i).maxReq ≤ (t.machine i).reqPerSlot / 8192 * 2 ∧ (t.machine i).onloadReq = 0 ∧
      (t.machine i).isUniform = true := by
  unfold machineIsUniform
  by_cases h1 : (t.machine i).maxReq ≤ (t.machine i).reqPerSlot / 8192 * 2
  · by_cases h2 : (t.machine i).onloadReq = 0
    · simp [h1, h2]
    · have h3 : 0 < (t.machine i).onloadReq := UInt64.pos_iff_ne_zero.mpr h2
      simp [h1, h2, h3]
  · simp [h1, UInt64.not_le.mp h1]

def scanAll (order : List ℕ) (reports : ℕ → Report) (t : Tally) : Tally :=
  order.foldl (fun t i => t.scan i (reports i)) t

variable (order : List ℕ) (reports : ℕ → Report)

theorem scanAll_cons (i : ℕ) :
    t.scanAll (i :: order) reports = (t.scan i (reports i)).scanAll order reports := rfl

theorem scanAll_concat (i : ℕ) :
    t.scanAll (order ++ [i]) reports = (t.scanAll order reports).scan i (reports i) := by
  simp only [scanAll, foldl_append, foldl_cons, foldl_nil]

theorem scanAll_congr {reports' : ℕ → Report} (h : ∀ k ∈ order, reports k = reports' k) :
    t.scanAll order reports = t.scanAll order reports' := by
  apply foldl_ext
  intro t i hi
  rw [h i hi]

theorem scanAll_scannedCnt :
    (t.scanAll order reports).scannedCnt = t.scannedCnt + order.length := by
  induction order generalizing t with
  | nil => rfl
  | cons i order ih =>
    rw [scanAll_cons, ih, scan_scannedCnt, length_cons]
    omega

theorem scanAll_ttReq : (t.scanAll order reports).ttRnicReq + (t.scanAll order reports).ttCpuReq =
      t.ttRnicReq + t.ttCpuReq +
        (order.map fun i => (reports i).total + (reports i).onload).sum := by
  induction order generalizing t with
  | nil => simp [scanAll]
  | cons i order ih =>
    rw [scanAll_cons, ih, scan_ttRnicReq, scan_ttCpuReq, map_cons, sum_cons,
      add_add_add_comm, add_assoc]

theorem scanAll_machine : (t.scanAll order reports).machine k =
    if k ∈ order then (reports k).stat groupSize else t.machine k := by
  induction order generalizing t with
  | nil => simp [scanAll]
  | cons i order ih =>
    rw [scanAll_cons, ih, scan_machine]
    by_cases hk : k = i
    · subst hk
      simp
    · simp [hk]

section
variable {f : Tally → UInt64} {v : ℕ → UInt64}

section
variable (hf : ∀ t i, f (scan i (reports i) t) = (if t.scannedCnt = 0 then 0 else f t) + v i)
include hf

theorem scanAll_sum (h : t.scannedCnt ≠ 0) :
    f (t.scanAll order reports) = f t + (order.map v).sum := by
  induction order generalizing t with
  | nil => simp [scanAll]
  | cons i order ih =>
    have hn : (t.scan i (reports i)).scannedCnt ≠ 0 := by simp
    rw [scanAll_cons, ih _ hn, hf, if_neg h, map_cons, sum_cons, add_assoc]

/-- A field that the first scan of a phase sets ends with the sum over the reports. -/
theorem scanAll_newPhase_sum (ho : order ≠ []) :
    f (t.newPhase.scanAll order reports) = (order.map v).sum := by
  cases order with
  | nil => exact absurd rfl ho
  | cons i order =>
    have hn : (t.newPhase.scan i (reports i)).scannedCnt ≠ 0 := by simp
    have h0 : t.newPhase.scannedCnt = 0 := rfl
    rw [scanAll_cons, scanAll_sum _ order reports hf hn, hf, if_pos h0, zero_add, map_cons,
      sum_cons]

end

end

theorem scanAll_newPhase_real (ho : order ≠ []) (k : ℕ) :
    (t.newPhase.scanAll order reports).realCounters k =
        (order.map fun i => slotReq (reports i).counters groupSize k).sum ∧
      (t.newPhase.scanAll order reports).realCCounters k =
        (order.map fun i => slotReq (reports i).cCounters groupSize k).sum :=
  ⟨scanAll_newPhase_sum (f := fun t => t.realCounters k) t order reports
      (fun _ i => scan_realCounters i _ k) ho,
    scanAll_newPhase_sum (f := fun t => t.realCCounters k) t order reports
      (fun _ i => scan_realCCounters i _ k) ho⟩

theorem scanAll_newPhase_counters (ho : order ≠ []) {k : ℕ} (hk : k < groupSize) :
    (t.newPhase.scanAll order reports).counters k =
        (order.map fun i => (reports i).counters k).sum ∧
      (t.newPhase.scanAll order reports).cCounters k =
        (order.map fun i => (reports i).cCounters k).sum :=
  ⟨scanAll_newPhase_sum (f := fun t => t.counters k) t order reports
      (fun _ i => scan_counters i _ hk) ho,
    scanAll_newPhase_sum (f := fun t => t.cCounters k) t order reports
      (fun _ i => scan_cCounters i _ hk) ho⟩

end Tally
end Fusa.Agent

import Fusa.Driver.Hook
import Fusa.Server.Scan

/-! The driver's request addresses against the slots that the server scans. -/
namespace Fusa.Rpc
open Server Nat

/-- The sizes that fix the ring: those of the server's command line and configuration. -/
structure Region where
  rpcAddr : ℕ
  rpcRegionSize : ℕ
  machineNum : ℕ
  rpcThreadNum : ℕ

namespace Region
variable (c : Region)

/-- What `run_rpc` publishes to the agents and, through them, to the drivers. -/
def rmeta : RpcMeta := ⟨c.machineNum, c.rpcAddr, c.rpcRegionSize / 2⟩

def window : ℕ := windowSize c.rpcRegionSize c.machineNum

def driverAddr (machineId idx off : ℕ) : ℕ := c.rmeta.remoteAddr machineId idx off

def scanAddr (k i j : ℕ) : ℕ := curReq c.rpcAddr c.window k i j

/-- The ring slots for which a driver can compute an address. -/
def DriverSlot (machineId idx off : ℕ) : Prop :=
  machineId < c.machineNum ∧ idx < maxRecorderNum ∧ off < c.rmeta.maxRpcNum

def ScannedAs (t k i j : ℕ) : Prop :=
  t < c.rpcThreadNum ∧ k < c.machineNum ∧ ScansIdx c.rpcThreadNum t i ∧ j < c.window

/-- The two sides agree on the request ring. -/
structure Agreement : Prop where
  injective : ∀ {m i o m' i' o'}, c.DriverSlot m i o → c.DriverSlot m' i' o' →
    c.driverAddr m i o = c.driverAddr m' i' o' → m = m' ∧ i = i' ∧ o = o'
  inside : ∀ {m i o}, c.DriverSlot m i o → c.rpcAddr ≤ c.driverAddr m i o ∧
    c.driverAddr m i o + rpcOpSize ≤ c.rpcAddr + c.rpcRegionSize / 2
  scanned : ∀ a, (∃ m i o, c.DriverSlot m i o ∧ c.driverAddr m i o = a) ↔
    ∃ t k i j, c.ScannedAs t k i j ∧ c.scanAddr k i j = a
  scanned_by_one : ∀ {m i o}, c.DriverSlot m i o →
    ∃! t, ∃ k i' j, c.ScannedAs t k i' j ∧ c.scanAddr k i' j = c.driverAddr m i o
  scanned_as : ∀ {m i o t k i' j}, c.DriverSlot m i o → c.ScannedAs t k i' j →
    c.scanAddr k i' j = c.driverAddr m i o → k = m ∧ i' = i ∧ j = o

theorem maxRpcNum_eq_window : c.rmeta.maxRpcNum = c.window := by
  unfold RpcMeta.maxRpcNum RpcMeta.rpcChunk rmeta window windowSize
  rw [Nat.div_div_eq_div_mul, Nat.div_div_eq_div_mul, ← Nat.mul_assoc,
    mul_comm c.machineNum maxRecorderNum]

variable {m i o i' : ℕ}

theorem driverAddr_injective {m' o' : ℕ} (hs : c.DriverSlot m i o) (hs' : c.DriverSlot m' i' o')
    (h : c.driverAddr m i o = c.driverAddr m' i' o') : m = m' ∧ i = i' ∧ o = o' := by
  obtain ⟨-, hi, ho⟩ := hs
  obtain ⟨-, hi', ho'⟩ := hs'
  have he : c.rmeta.rpcChunk * (m * maxRecorderNum + i) + rpcOpSize * o =
      c.rmeta.rpcChunk * (m' * maxRecorderNum + i') + rpcOpSize * o' := by
    unfold driverAddr RpcMeta.remoteAddr at h
    omega
  obtain ⟨hq, hr⟩ :=
    Blocks.mul_add_inj (Blocks.mul_lt_of_lt_div ho) (Blocks.mul_lt_of_lt_div ho') he
  rw [mul_comm m, mul_comm m'] at hq
  obtain ⟨hm, hi⟩ := Blocks.mul_add_inj hi hi' hq
  exact ⟨hm, hi, Nat.eq_of_mul_eq_mul_left (by decide) hr⟩

theorem driverAddr_inside (hs : c.DriverSlot m i o) : c.rpcAddr ≤ c.driverAddr m i o ∧
      c.driverAddr m i o + rpcOpSize ≤ c.rpcAddr + c.rpcRegionSize / 2 := by
  obtain ⟨hm, hi, ho⟩ := hs
  have hq : m * maxRecorderNum + i < c.machineNum * maxRecorderNum := by
    rw [mul_comm m, mul_comm c.machineNum]
    exact Blocks.mul_add_lt hm hi
  have hlast : rpcOpSize * o + rpcOpSize ≤ c.rmeta.rpcChunk := by
    have h1 : rpcOpSize * (o + 1) ≤ rpcOpSize * c.rmeta.maxRpcNum := mul_le_mul_left _ ho
    exact (mul_succ rpcOpSize o ▸ h1).trans (mul_div_le _ _)
  have hblock : c.rmeta.rpcChunk * (m * maxRecorderNum + i + 1) ≤
      c.rmeta.rpcChunk * (c.machineNum * maxRecorderNum) := mul_le_mul_left _ hq
  have htotal : c.rmeta.rpcChunk * (c.machineNum * maxRecorderNum) ≤ c.rpcRegionSize / 2 := by
    rw [mul_comm]
    exact mul_div_le _ _
  rw [mul_succ] at hblock
  unfold driverAddr RpcMeta.remoteAddr
  have hb : c.rmeta.rpcAddr = c.rpcAddr := rfl
  omega

section
variable {c} (hchunk : rpcOpSize ∣ c.rmeta.rpcChunk)
include hchunk

theorem driverAddr_eq_scanAddr (m i o : ℕ) : c.driverAddr m i o = c.scanAddr m i o := by
  have hw : c.rmeta.rpcChunk = rpcOpSize * c.window := by
    rw [← maxRpcNum_eq_window]
    exact (Nat.mul_div_cancel' hchunk).symm
  unfold driverAddr scanAddr curReq reqOff RpcMeta.remoteAddr
  rw [hw, show c.rmeta.rpcAddr = c.rpcAddr from rfl]
  ring

variable (hthreads : c.rpcThreadNum ∣ maxRecorderNum)
include hthreads

omit hchunk in
theorem driverSlot_scannedAs (hs : c.DriverSlot m i o) :
    c.ScannedAs (i / (maxRecorderNum / c.rpcThreadNum)) m i o := by
  obtain ⟨hm, hi, ho⟩ := hs
  have hp : 0 < maxRecorderNum / c.rpcThreadNum :=
    div_pos (le_of_dvd (by decide) hthreads) (pos_of_dvd_of_pos hthreads (by decide))
  refine ⟨?_, hm, (scansIdx_iff hp).mpr rfl, c.maxRpcNum_eq_window ▸ ho⟩
  rwa [Nat.div_lt_iff_lt_mul hp, Nat.mul_comm, Nat.div_mul_cancel hthreads]

omit hchunk in
theorem scannedAs_driverSlot {t k j : ℕ} (hs : c.ScannedAs t k i j) : c.DriverSlot k i j := by
  obtain ⟨ht, hk, ⟨-, hi⟩, hj⟩ := hs
  refine ⟨hk, hi.trans_le ?_, c.maxRpcNum_eq_window ▸ hj⟩
  calc maxRecorderNum / c.rpcThreadNum * (t + 1)
      ≤ maxRecorderNum / c.rpcThreadNum * c.rpcThreadNum := mul_le_mul_left _ ht
    _ = maxRecorderNum := Nat.div_mul_cancel hthreads

theorem scannedAs_eq {t k j : ℕ} (hd : c.DriverSlot m i o) (hs : c.ScannedAs t k i' j)
    (h : c.scanAddr k i' j = c.driverAddr m i o) : k = m ∧ i' = i ∧ j = o := by
  rw [← driverAddr_eq_scanAddr hchunk] at h
  exact c.driverAddr_injective (scannedAs_driverSlot hthreads hs) hd h

theorem agreement_of_dvd : c.Agreement where
  injective := c.driverAddr_injective
  inside := c.driverAddr_inside
  scanned a := by
    constructor
    · rintro ⟨m, i, o, hs, rfl⟩
      exact ⟨_, m, i, o, driverSlot_scannedAs hthreads hs,
        (driverAddr_eq_scanAddr hchunk m i o).symm⟩
    · rintro ⟨t, k, i, j, hs, rfl⟩
      exact ⟨k, i, j, scannedAs_driverSlot hthreads hs, driverAddr_eq_scanAddr hchunk k i j⟩
  scanned_by_one {m i o} hs := by
    refine ⟨_, ⟨m, i, o, driverSlot_scannedAs hthreads hs,
      (driverAddr_eq_scanAddr hchunk m i o).symm⟩, ?_⟩
    rintro t ⟨k, i', j, ht, ha⟩
    obtain ⟨-, rfl, -⟩ := scannedAs_eq hchunk hthreads hs ht ha
    have hp : 0 < maxRecorderNum / c.rpcThreadNum :=
      div_pos (le_of_dvd (by decide) hthreads)
        (pos_of_dvd_of_pos hthreads (by decide))
    exact ((scansIdx_iff hp).mp ht.2.2.1).symm
  scanned_as := scannedAs_eq hchunk hthreads

end

section
variable (hm : 0 < c.machineNum) (hw : 0 < c.window) (h : c.Agreement)
include hm hw h

theorem dvd_chunk_of_agreement : rpcOpSize ∣ c.rmeta.rpcChunk := by
  have hs : c.DriverSlot 0 1 0 := ⟨hm, by decide, c.maxRpcNum_eq_window ▸ hw⟩
  obtain ⟨t, k, i, j, ht, ha⟩ := (h.scanned _).mp ⟨0, 1, 0, hs, rfl⟩
  obtain ⟨rfl, rfl, rfl⟩ := h.scanned_as hs ht ha
  refine ⟨c.window, ?_⟩
  have hb : c.rmeta.rpcAddr = c.rpcAddr := rfl
  simp only [scanAddr, curReq, reqOff, driverAddr, RpcMeta.remoteAddr, hb, zero_mul, zero_add,
    one_mul, mul_one, mul_zero, add_zero] at ha
  omega

theorem dvd_threads_of_agreement : c.rpcThreadNum ∣ maxRecorderNum := by
  have hs : c.DriverSlot 0 31 0 := ⟨hm, by decide, c.maxRpcNum_eq_window ▸ hw⟩
  obtain ⟨t, k, i, j, ht, ha⟩ := (h.scanned _).mp ⟨0, 31, 0, hs, rfl⟩
  obtain ⟨-, rfl, -⟩ := h.scanned_as hs ht ha
  have hle : maxRecorderNum / c.rpcThreadNum * (t + 1) ≤
      maxRecorderNum / c.rpcThreadNum * c.rpcThreadNum := mul_le_mul_left _ ht.1
  have hlt := ht.2.2.1.2
  have hdiv := div_mul_le_self maxRecorderNum c.rpcThreadNum
  have hmax : maxRecorderNum = 32 := rfl
  exact Dvd.intro_left _ (by omega : maxRecorderNum / c.rpcThreadNum * c.rpcThreadNum = _)

end

/-- Agreement needs a chunk of whole slots and threads that divide the recorders evenly, no more. -/
theorem agreement_iff (hm : 1 ≤ c.machineNum) (hw : 0 < c.window) :
    c.Agreement ↔ rpcOpSize ∣ c.rpcRegionSize / 2 / (c.machineNum * maxRecorderNum) ∧
      c.rpcThreadNum ∣ maxRecorderNum :=
  ⟨fun h => ⟨c.dvd_chunk_of_agreement hm hw h, c.dvd_threads_of_agreement hm hw h⟩,
    fun h => agreement_of_dvd h.1 h.2⟩

theorem agreement_four_machines :
    (1 ≤ 4 ∧ 0 < (Region.mk 0 131072 4 4).window) ∧ (Region.mk 0 131072 4 4).Agreement :=
  ⟨by decide, (agreement_iff ⟨0, 131072, 4, 4⟩ (by decide) (by decide)).mpr (by decide)⟩

/-- The same region with three machines: a chunk of 682 bytes holds ten slots of 64. -/
theorem not_agreement_three_machines :
    ¬ ∀ c : Region, 1 ≤ c.machineNum → 1 ≤ c.rpcThreadNum → 0 < c.window → c.Agreement := by
  intro h
  have hd := dvd_chunk_of_agreement ⟨0, 131072, 3, 4⟩ (by decide) (by decide)
    (h ⟨0, 131072, 3, 4⟩ (by decide) (by decide) (by decide))
  exact absurd hd (by decide)

end Region
end Fusa.Rpc

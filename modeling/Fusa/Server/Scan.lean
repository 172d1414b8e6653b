import Fusa.Common
import Fusa.Lib.Modular

/-! The slots that the threads of `rpc_func_impl` scan. -/
namespace Fusa.Server

open Nat

def windowSize (rpcRegionSize machineNum : ℕ) : ℕ :=
  rpcRegionSize / (2 * (maxRecorderNum * machineNum) * rpcOpSize)

/-- First slot number of the ring of QP `i` on machine `k`. -/
def reqOff (windowSize k i : ℕ) : ℕ := (k * maxRecorderNum + i) * windowSize

def curReq (rpcAddr windowSize k i j : ℕ) : ℕ := rpcAddr + rpcOpSize * (reqOff windowSize k i + j)

def curResp (rpcAddr rpcRegionSize windowSize k i j : ℕ) : ℕ :=
  rpcAddr + rpcRegionSize / 2 + rpcOpSize * (reqOff windowSize k i + j)

variable {k i j k' i' j' rpcAddr : ℕ}

section
variable (hi : i < maxRecorderNum) (hi' : i' < maxRecorderNum)
include hi hi'

theorem reqOff_inj {windowSize : ℕ} (hj : j < windowSize) (hj' : j' < windowSize)
    (h : reqOff windowSize k i + j = reqOff windowSize k' i' + j') : k = k' ∧ i = i' ∧ j = j' := by
  unfold reqOff at h
  rw [mul_comm _ windowSize, mul_comm _ windowSize] at h
  obtain ⟨hq, rfl⟩ := Blocks.mul_add_inj hj hj' h
  rw [mul_comm k, mul_comm k'] at hq
  obtain ⟨rfl, rfl⟩ := Blocks.mul_add_inj hi hi' hq
  exact ⟨rfl, rfl, rfl⟩

theorem curReq_inj {windowSize : ℕ} (hj : j < windowSize) (hj' : j' < windowSize)
    (h : curReq rpcAddr windowSize k i j = curReq rpcAddr windowSize k' i' j') :
    k = k' ∧ i = i' ∧ j = j' := by
  unfold curReq rpcOpSize at h
  exact reqOff_inj hi hi' hj hj' (by omega)

theorem curResp_inj {rpcRegionSize windowSize : ℕ} (hj : j < windowSize) (hj' : j' < windowSize)
    (h : curResp rpcAddr rpcRegionSize windowSize k i j = curResp rpcAddr rpcRegionSize windowSize
      k' i' j') : k = k' ∧ i = i' ∧ j = j' := by
  unfold curResp rpcOpSize at h
  exact reqOff_inj hi hi' hj hj' (by omega)

end

def ScansIdx (rpcThreadNum logicId i : ℕ) : Prop :=
  maxRecorderNum / rpcThreadNum * logicId ≤ i ∧
    i < maxRecorderNum / rpcThreadNum * (logicId + 1)

theorem scansIdx_iff {rpcThreadNum logicId : ℕ} (h : 0 < maxRecorderNum / rpcThreadNum) :
    ScansIdx rpcThreadNum logicId i ↔ i / (maxRecorderNum / rpcThreadNum) = logicId := by
  unfold ScansIdx
  rw [Nat.div_eq_iff h]
  constructor
  · rintro ⟨h1, h2⟩
    rw [mul_succ] at h2
    rw [mul_comm] at h1 h2
    omega
  · rintro ⟨h1, h2⟩
    rw [mul_succ, mul_comm]
    omega

structure ScanPos where
  k : ℕ
  i : ℕ
  j : ℕ
deriving DecidableEq

namespace ScanPos
variable (machineNum rpcThreadNum windowSize logicId : ℕ)

/-- Values that the loops of thread `logicId` run through. -/
def Valid (p : ScanPos) : Prop :=
  p.k < machineNum ∧ ScansIdx rpcThreadNum logicId p.i ∧ p.j < windowSize

/-- The next turn of the innermost loop, with the loops around it. -/
def next (p : ScanPos) : ScanPos :=
  if p.j + 1 < windowSize then ⟨p.k, p.i, p.j + 1⟩
  else if p.i + 1 < maxRecorderNum / rpcThreadNum * (logicId + 1) then ⟨p.k, p.i + 1, 0⟩
  else if p.k + 1 < machineNum then ⟨p.k + 1, maxRecorderNum / rpcThreadNum * logicId, 0⟩
  else ⟨0, maxRecorderNum / rpcThreadNum * logicId, 0⟩

def passLength : ℕ := windowSize * (maxRecorderNum / rpcThreadNum * machineNum)

def turn (p : ScanPos) : ℕ :=
  windowSize * (maxRecorderNum / rpcThreadNum * p.k +
    (p.i - maxRecorderNum / rpcThreadNum * logicId)) + p.j

variable {machineNum rpcThreadNum windowSize logicId} {p p' : ScanPos}

section
variable (h : p.Valid machineNum rpcThreadNum windowSize logicId)
include h

theorem Valid.idx_lt :
    p.i - maxRecorderNum / rpcThreadNum * logicId < maxRecorderNum / rpcThreadNum := by
  obtain ⟨-, ⟨h1, h2⟩, -⟩ := h
  rw [mul_succ] at h2
  omega

theorem turn_lt :
    p.turn rpcThreadNum windowSize logicId < passLength machineNum rpcThreadNum windowSize :=
  Blocks.mul_add_lt (Blocks.mul_add_lt h.1 h.idx_lt) h.2.2

theorem turn_inj (h' : p'.Valid machineNum rpcThreadNum windowSize logicId)
    (he : p.turn rpcThreadNum windowSize logicId = p'.turn rpcThreadNum windowSize logicId) :
    p = p' := by
  obtain ⟨hki, hj⟩ := Blocks.mul_add_inj h.2.2 h'.2.2 he
  obtain ⟨hk, hi⟩ := Blocks.mul_add_inj h.idx_lt h'.idx_lt hki
  have h1 := h.2.1.1
  have h2 := h'.2.1.1
  cases p
  cases p'
  simp only [ScanPos.mk.injEq] at *
  omega

theorem Valid.next :
    (p.next machineNum rpcThreadNum windowSize logicId).Valid machineNum rpcThreadNum windowSize
      logicId := by
  obtain ⟨hk, ⟨h1, h2⟩, hj⟩ := h
  have hlo : ScansIdx rpcThreadNum logicId (maxRecorderNum / rpcThreadNum * logicId) := by
    refine ⟨le_rfl, ?_⟩
    rw [mul_succ] at h2 ⊢
    omega
  unfold ScanPos.next
  split
  · exact ⟨hk, ⟨h1, h2⟩, ‹_›⟩
  · split
    · exact ⟨hk, ⟨h1.trans (le_succ _), ‹_›⟩, by dsimp only; omega⟩
    · split
      · exact ⟨‹_›, hlo, by dsimp only; omega⟩
      · exact ⟨by dsimp only; omega, hlo, by dsimp only; omega⟩

theorem turn_next :
    (p.next machineNum rpcThreadNum windowSize logicId).turn rpcThreadNum windowSize logicId =
      (p.turn rpcThreadNum windowSize logicId + 1) %
        passLength machineNum rpcThreadNum windowSize := by
  have hi := h.idx_lt
  have hlo := h.2.1.1
  have hj := h.2.2
  have hk := h.1
  have hhi : maxRecorderNum / rpcThreadNum * (logicId + 1) =
      maxRecorderNum / rpcThreadNum * logicId + maxRecorderNum / rpcThreadNum := mul_succ _ _
  have hlt := turn_lt h.next
  unfold next at hlt ⊢
  split at hlt
  · rw [if_pos ‹_›]
    exact (mod_eq_of_lt hlt).symm
  · rw [if_neg ‹_›]
    have hj1 : p.j + 1 = windowSize := by omega
    have hstep : p.turn rpcThreadNum windowSize logicId + 1 = windowSize *
        (maxRecorderNum / rpcThreadNum * p.k +
          (p.i - maxRecorderNum / rpcThreadNum * logicId) + 1) := by
      unfold turn
      rw [mul_succ]
      omega
    rw [hstep]
    split at hlt
    · rw [if_pos ‹_›]
      have hi1 : p.i + 1 - maxRecorderNum / rpcThreadNum * logicId =
          p.i - maxRecorderNum / rpcThreadNum * logicId + 1 := by omega
      simp only [turn, hi1, add_zero, ← add_assoc] at hlt ⊢
      exact (mod_eq_of_lt hlt).symm
    · rw [if_neg ‹_›]
      have hi1 : p.i - maxRecorderNum / rpcThreadNum * logicId + 1 =
          maxRecorderNum / rpcThreadNum := by omega
      rw [add_assoc, hi1, ← mul_succ]
      split at hlt
      · rw [if_pos ‹_›]
        simp only [turn, Nat.sub_self, Nat.add_zero] at hlt ⊢
        exact (Nat.mod_eq_of_lt hlt).symm
      · rw [if_neg ‹_›, show p.k.succ = machineNum by omega]
        simp [turn, passLength]

end

end ScanPos
end Fusa.Server

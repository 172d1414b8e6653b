import Fusa.Agent.Collect
import Fusa.Agent.Phases

/-! The scan of a round: sweeps over the machines until each of them was scanned once. -/
namespace Fusa.Agent
open Report List

structure Mesgs where
  mesgArr : Mesg
  cMesgArr : Mesg

def Mesgs.report (m : Mesgs) : Report := ⟨m.mesgArr.entry, m.cMesgArr.entry⟩

/-- The flags `scanned`, and the variables of the scan. -/
structure ScanState where
  scanned : ℕ → Bool
  tally : Tally

namespace ScanState

def check (machineArr : ℕ → Mesgs) (seen : ℕ → Bool) (s : ScanState) (i : ℕ) : ScanState :=
  if seen i = true ∧ s.scanned i = false then
    ⟨Function.update s.scanned i true, s.tally.scan i (machineArr i).report⟩
  else s

def sweep (nrMachine : ℕ) (machineArr : ℕ → Mesgs) (seen : ℕ → Bool) (s : ScanState) : ScanState :=
  (List.range nrMachine).foldl (check machineArr seen) s

/-- The passes of a round, each with the phases it sees, until all machines are scanned. -/
def scanLoop (nrMachine : ℕ) (machineArr : ℕ → Mesgs) : List (ℕ → Bool) → ScanState → Option Tally
  | [], _ => none
  | seen :: sweeps, s =>
    let s := s.sweep nrMachine machineArr seen
    if s.tally.scannedCnt = nrMachine then some s.tally
    else s.scanLoop nrMachine machineArr sweeps

end ScanState

/-- The scan of a round that starts with the variables of the round before. -/
def scanRound (nrMachine : ℕ) (machineArr : ℕ → Mesgs) (sweeps : List (ℕ → Bool)) (t : Tally) :
    Option Tally :=
  ScanState.scanLoop nrMachine machineArr sweeps ⟨fun _ => false, t.newPhase⟩

/-- The counters are the sums over the machines, per entry, per slot and in total. -/
structure Aggregated (nrMachine : ℕ) (machineArr : ℕ → Mesgs) (t : Tally) : Prop where
  counters : ∀ j < groupSize, t.counters j =
    ∑ i ∈ Finset.range nrMachine, (machineArr i).mesgArr.entry j
  cCounters : ∀ j < groupSize, t.cCounters j =
    ∑ i ∈ Finset.range nrMachine, (machineArr i).cMesgArr.entry j
  realCounters : ∀ k < maxCounterNum, t.realCounters k =
    ∑ i ∈ Finset.range nrMachine, ∑ j ∈ Finset.range groupSize with j % maxCounterNum = k,
      (machineArr i).mesgArr.entry j
  realCCounters : ∀ k < maxCounterNum, t.realCCounters k =
    ∑ i ∈ Finset.range nrMachine, ∑ j ∈ Finset.range groupSize with j % maxCounterNum = k,
      (machineArr i).cMesgArr.entry j
  ttRnicReq : t.ttRnicReq =
    ∑ i ∈ Finset.range nrMachine, ∑ j ∈ Finset.range groupSize, (machineArr i).mesgArr.entry j
  ttCpuReq : t.ttCpuReq =
    ∑ i ∈ Finset.range nrMachine, ∑ j ∈ Finset.range groupSize, (machineArr i).cMesgArr.entry j

/-- The machines in `order` were scanned, one after the other. -/
structure Scanned (machineArr : ℕ → Mesgs) (t : Tally) (nrMachine : ℕ) (order : List ℕ)
    (s : ScanState) : Prop where
  nodup : order.Nodup
  lt : ∀ i ∈ order, i < nrMachine
  flags : ∀ i, s.scanned i = true ↔ i ∈ order
  tally : s.tally = t.newPhase.scanAll order fun i => (machineArr i).report

variable {sweeps : List (ℕ → Bool)}

section
variable {machineArr : ℕ → Mesgs} {t : Tally} {nrMachine : ℕ} {order : List ℕ} {s : ScanState}

section
variable (h : Scanned machineArr t nrMachine order s)
include h

theorem Scanned.check (seen : ℕ → Bool) {i : ℕ} (hi : i < nrMachine) :
    ∃ order', order ⊆ order' ∧ (seen i = true → i ∈ order') ∧
      Scanned machineArr t nrMachine order' (s.check machineArr seen i) := by
  unfold ScanState.check
  by_cases hc : seen i = true ∧ s.scanned i = false
  · have hmem : i ∉ order := by
      rw [← h.flags, hc.2]
      decide
    rw [if_pos hc]
    refine ⟨order ++ [i], subset_append_left _ _, fun _ => by simp, ?_, ?_, ?_, ?_⟩
    · rw [nodup_append]
      refine ⟨h.nodup, nodup_singleton i, fun k hk a ha => ?_⟩
      rw [mem_singleton.mp ha]
      exact ne_of_mem_of_not_mem hk hmem
    · intro k hk
      rcases mem_append.mp hk with hk | hk
      · exact h.lt k hk
      · rwa [mem_singleton.mp hk]
    · intro k
      by_cases hk : k = i
      · simp [hk]
      · simp [hk, h.flags]
    · rw [Tally.scanAll_concat, ← h.tally]
  · rw [if_neg hc]
    refine ⟨order, fun _ hk => hk, fun hs => ?_, h⟩
    rw [← h.flags]
    by_contra hf
    exact hc ⟨hs, Bool.eq_false_iff.mpr hf⟩

theorem Scanned.checks (seen : ℕ → Bool) {is : List ℕ} (his : ∀ i ∈ is, i < nrMachine) :
    ∃ order', order ⊆ order' ∧ (∀ i ∈ is, seen i = true → i ∈ order') ∧
      Scanned machineArr t nrMachine order' (is.foldl (ScanState.check machineArr seen) s) := by
  induction is generalizing order s with
  | nil => exact ⟨order, fun _ hk => hk, by simp, h⟩
  | cons i is ih =>
    obtain ⟨order₁, hsub₁, hi, h₁⟩ := h.check seen (his i (.head _))
    obtain ⟨order₂, hsub₂, his₂, h₂⟩ := ih h₁ fun k hk => his k (.tail _ hk)
    refine ⟨order₂, fun k hk => hsub₂ (hsub₁ hk), ?_, h₂⟩
    intro k hk hs
    rcases mem_cons.mp hk with rfl | hk
    · exact hsub₂ (hi hs)
    · exact his₂ k hk hs

theorem Scanned.sweep (seen : ℕ → Bool) :
    ∃ order', order ⊆ order' ∧ (∀ i < nrMachine, seen i = true → i ∈ order') ∧
      Scanned machineArr t nrMachine order' (s.sweep nrMachine machineArr seen) := by
  obtain ⟨order', hsub, hi, h'⟩ := h.checks seen fun i hi => mem_range.mp hi
  exact ⟨order', hsub, fun i hlt => hi i (mem_range.mpr hlt), h'⟩

theorem Scanned.scannedCnt : s.tally.scannedCnt = order.length := by
  rw [h.tally, Tally.scanAll_scannedCnt]
  exact Nat.zero_add _

theorem Scanned.perm (hlen : nrMachine ≤ order.length) : order.Perm (List.range nrMachine) := by
  apply (subperm_of_subset h.nodup ?_).perm_of_length_le
  · rwa [length_range]
  · intro i hi
    exact mem_range.mpr (h.lt i hi)

/-- The loop ends once every machine was ready in some sweep, with each of them scanned. -/
theorem Scanned.scanLoop (hne : s.tally.scannedCnt ≠ nrMachine)
    (hall : ∀ i < nrMachine, i ∈ order ∨ ∃ seen ∈ sweeps, seen i = true) :
    ∃ order', order'.Perm (List.range nrMachine) ∧ s.scanLoop nrMachine machineArr sweeps =
        some (t.newPhase.scanAll order' fun i => (machineArr i).report) := by
  induction sweeps generalizing order s with
  | nil =>
    have hsub : (List.range nrMachine).Subperm order := by
      apply subperm_of_subset nodup_range
      intro i hi
      simpa using hall i (mem_range.mp hi)
    have hlen := hsub.length_le
    rw [length_range] at hlen
    have hperm := (h.perm hlen).length_eq
    rw [length_range, ← h.scannedCnt] at hperm
    exact absurd hperm hne
  | cons seen sweeps ih =>
    obtain ⟨order', hsub, hseen, h'⟩ := h.sweep seen
    unfold ScanState.scanLoop
    by_cases hc : (s.sweep nrMachine machineArr seen).tally.scannedCnt = nrMachine
    · rw [if_pos hc]
      refine ⟨order', h'.perm ?_, by rw [h'.tally]⟩
      rw [← h'.scannedCnt, hc]
    · rw [if_neg hc]
      apply ih h' hc
      intro i hi
      rcases hall i hi with hi' | ⟨seen', hmem, hs⟩
      · exact .inl (hsub hi')
      · rcases mem_cons.mp hmem with rfl | hmem
        · exact .inl (hseen i hi hs)
        · exact .inr ⟨seen', hmem, hs⟩

end

end

theorem scanRound_eq {nrMachine : ℕ} (machineArr : ℕ → Mesgs) (t : Tally) (hn : 0 < nrMachine)
    (hall : ∀ i < nrMachine, ∃ seen ∈ sweeps, seen i = true) :
    ∃ order, order.Perm (List.range nrMachine) ∧ scanRound nrMachine machineArr sweeps t =
      some (t.newPhase.scanAll order fun i => (machineArr i).report) := by
  have h0 : Scanned machineArr t nrMachine [] ⟨fun _ => false, t.newPhase⟩ :=
    ⟨.nil, by simp, by simp, rfl⟩
  exact h0.scanLoop hn.ne fun i hi => .inr (hall i hi)

theorem slotReq_eq (v : ℕ → UInt64) (n k : ℕ) :
    slotReq v n k = ∑ j ∈ Finset.range n with j % maxCounterNum = k, v j :=
  (Finset.sum_filter _ _).symm

theorem sum_map_range (f : ℕ → UInt64) (n : ℕ) :
    ((List.range n).map f).sum = ∑ i ∈ Finset.range n, f i := rfl

theorem Tally.scanAll_newPhase_ttReq (t : Tally) (order : List ℕ) (reports : ℕ → Report) :
    (t.newPhase.scanAll order reports).ttRnicReq = (order.map fun i => (reports i).total).sum ∧
      (t.newPhase.scanAll order reports).ttCpuReq =
        (order.map fun i => (reports i).onload).sum := by
  induction order using List.reverseRecOn with
  | nil => exact ⟨rfl, rfl⟩
  | append_singleton order i ih =>
    rw [scanAll_concat, scan_ttRnicReq, scan_ttCpuReq, ih.1, ih.2]
    simp

/-- However the machines become ready, the round ends with the sums over their messages alone. -/
theorem scanRound_aggregated {nrMachine : ℕ} (machineArr : ℕ → Mesgs) (sweeps : List (ℕ → Bool))
    (t : Tally) (hn : 0 < nrMachine) (hall : ∀ i < nrMachine, ∃ seen ∈ sweeps, seen i = true) :
    ∃ u, scanRound nrMachine machineArr sweeps t = some u ∧ Aggregated nrMachine machineArr u := by
  obtain ⟨order, hp, he⟩ := scanRound_eq machineArr t hn hall
  have ho : order ≠ [] := by
    rintro rfl
    have hl := hp.length_eq
    rw [length_range, length_nil] at hl
    omega
  have hreal := Tally.scanAll_newPhase_real t order (fun i => (machineArr i).report) ho
  have hcnt := fun {k} => Tally.scanAll_newPhase_counters t order
    (fun i => (machineArr i).report) ho (k := k)
  have htt := Tally.scanAll_newPhase_ttReq t order fun i => (machineArr i).report
  refine ⟨_, he, ?_, ?_, ?_, ?_, ?_, ?_⟩
  · intro j hj
    rw [(hcnt hj).1, (hp.map _).sum_eq, sum_map_range]
    rfl
  · intro j hj
    rw [(hcnt hj).2, (hp.map _).sum_eq, sum_map_range]
    rfl
  · intro k _
    rw [(hreal k).1, (hp.map _).sum_eq, sum_map_range]
    exact Finset.sum_congr rfl fun i _ => slotReq_eq _ _ _
  · intro k _
    rw [(hreal k).2, (hp.map _).sum_eq, sum_map_range]
    exact Finset.sum_congr rfl fun i _ => slotReq_eq _ _ _
  · rw [htt.1, (hp.map _).sum_eq, sum_map_range]
    rfl
  · rw [htt.2, (hp.map _).sum_eq, sum_map_range]
    rfl

def sevenths (i : ℕ) : Mesgs := ⟨Mesg.setEntry (fun _ _ => 0) 7 (UInt64.ofNat i + 3), fun _ _ => 0⟩

theorem scanRound_sevenths :
    ∃ u, scanRound 2 sevenths [(· == 1), fun _ => true] boot.tally = some u ∧ u.counters 7 = 7 := by
  obtain ⟨u, hu, h⟩ := scanRound_aggregated sevenths [(· == 1), fun _ => true] boot.tally
    (by decide : 0 < 2) fun i _ => ⟨fun _ => true, by simp, rfl⟩
  refine ⟨u, hu, ?_⟩
  rw [h.counters 7 (by decide)]
  decide

end Fusa.Agent

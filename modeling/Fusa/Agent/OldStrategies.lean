import Fusa.Agent.Capacity

/-! What `old_strategies` holds over the phases of a run. -/
namespace Fusa.Agent
open Transition Report List

theorem Strategies.applyAll_old {ds : List Decision} (hnd : (ds.map (·.idx)).Nodup)
    (hsave : ∀ d ∈ ds, d.saveOld = true) (m : Strategies) (c : ℕ) :
    (m.applyAll ds).old c = if c ∈ ds.map (·.idx) then m.credit c else m.old c := by
  induction ds generalizing m with
  | nil => rfl
  | cons d ds ih =>
    rw [map_cons, nodup_cons] at hnd
    have hd : m.saveOld d = { m with old := Function.update m.old d.idx (m.credit d.idx) } :=
      if_pos (hsave d (.head _))
    have hcons : m.applyAll (d :: ds) = (m.apply d).applyAll ds := rfl
    rw [hcons, ih hnd.2 fun x hx => hsave x (.tail _ hx)]
    simp only [apply, store, hd, map_cons, mem_cons]
    by_cases hc : c = d.idx
    · subst hc
      simp [hnd.1]
    · simp [hc]

def decided (Q : TaskQueue) (cfg : ServerConfig) (s : PhaseState) (a : PhaseInput) : List ℕ :=
  (makePlan Q cfg (s.tally.newPhase.scanAll a.order a.reports)).decisions.map (·.idx)

section
variable {Q : TaskQueue} {cfg : ServerConfig} {s t : PhaseState} {a : PhaseInput}

theorem PhaseState.run_credit {ds : List Decision} {c : ℕ} {v : UInt16} {b : Bool} (s : PhaseState)
    (hd : (makePlan Q cfg (s.tally.newPhase.scanAll a.order a.reports)).decisions =
      ds ++ [⟨c, v, b⟩]) : (s.run Q cfg a).strategies.credit c = v := by
  unfold PhaseState.run
  simp only [hd]
  exact Strategies.applyAll_concat_credit ..

theorem next_old (hpa : cfg.paEnabled = false) (hag : cfg.agentEnabled = true)
    (h1 : cfg.threshold ≠ rnicThreshold) (h0 : cfg.threshold ≠ 0)
    (hn : (phases Q cfg).next s a = some t) (c : ℕ) : t.strategies.old c =
      if c ∈ decided Q cfg s a then s.strategies.credit c else s.strategies.old c := by
  simp only [phases, Option.ite_none_right_eq_some, Option.some.injEq] at hn
  have hd := makePlan_decisions Q (s.tally.newPhase.scanAll a.order a.reports) hag hpa h1 h0
  rw [← hn.2]
  unfold decided PhaseState.run
  simp only [hd]
  apply Strategies.applyAll_old (skewedDecisions_nodup ..)
  intro d hmem
  exact skewedDecisions_saveOld hpa hmem

end

/-- The phases with the credits that each one found. -/
def history (Q : TaskQueue) (cfg : ServerConfig) :
    System (PhaseState × (ℕ → UInt16)) PhaseInput where
  start s := (phases Q cfg).start s.1 ∧ s.2 = s.1.strategies.credit
  next s a := ((phases Q cfg).next s.1 a).map (·, s.1.strategies.credit)

/-- All requests of a slot, on the RNIC and on the CPU, are too few for a hot slot. -/
def Quiet (cfg : ServerConfig) (t : Tally) (i : ℕ) : Prop :=
  (t.realCounters i).toNat + reqSum ((slotCredits i).map t.cCounters) < (overThres cfg t).toNat

/-- A slot is quiet in the phase after one that has switched a credit of it. -/
def Calm (cfg : ServerConfig) (s : PhaseState × (ℕ → UInt16)) (a : PhaseInput) : Prop :=
  ∀ c < groupSize, s.2 c ≠ s.1.strategies.credit c →
    Quiet cfg (s.1.tally.newPhase.scanAll a.order a.reports) (c % maxCounterNum)

/-- Of a quiet slot the RNIC takes every sub-slot back. -/
theorem coldLoop_all (saveOld : Bool) (thres : UInt64) (t : Tally) (i : ℕ) {js : List ℕ}
    {cnt : UInt64} (h : (t.realCounters i).toNat + cnt.toNat +
      reqSum ((js.map fun j => i + j * maxCounterNum).map t.cCounters) < thres.toNat) :
    (coldLoop saveOld thres t i js cnt).map (·.idx) = js.map fun j => i + j * maxCounterNum := by
  induction js generalizing cnt with
  | nil => rfl
  | cons j js ih =>
    have hlt := thres.toNat_lt
    simp only [map_cons, reqSum, sum_cons] at h
    have htest : t.cCounters (i + j * maxCounterNum) + cnt + t.realCounters i < thres := by
      rw [UInt64.lt_iff_toNat_lt, UInt64.toNat_add, UInt64.toNat_add]
      omega
    simp only [coldLoop, if_pos htest, map_cons]
    rw [ih]
    rw [UInt64.toNat_add]
    unfold reqSum
    omega

theorem Quiet.coldDecisions {cfg : ServerConfig} {t : Tally} {i : ℕ} (saveOld : Bool)
    (h : Quiet cfg t i) :
    (coldDecisions saveOld (overThres cfg t) t i).map (·.idx) = slotCredits i := by
  have hlt : t.realCounters i < overThres cfg t := by
    rw [UInt64.lt_iff_toNat_lt]
    exact Nat.lt_of_le_of_lt (Nat.le_add_right _ _) h
  rw [Agent.coldDecisions, if_neg (UInt64.not_le.mpr hlt)]
  exact coldLoop_all _ _ t i h

theorem Quiet.mem_skewedDecisions {cfg : ServerConfig} {t : Tally} {c : ℕ} (Q : TaskQueue)
    (h : Quiet cfg t (c % maxCounterNum)) (hc : c < groupSize) :
    c ∈ (skewedDecisions Q cfg t).map (·.idx) := by
  have hi : c % maxCounterNum ∈ List.range maxCounterNum := mem_range.mpr (Nat.mod_lt _ (by decide))
  rw [skewedDecisions_eq, map_append, map_flatMap]
  refine mem_append_left _ (mem_flatMap.mpr ⟨_, hi, ?_⟩)
  rw [h.coldDecisions]
  refine mem_map.mpr ⟨c / maxCounterNum, mem_range.mpr ?_, ?_⟩
  · exact Nat.div_lt_of_lt_mul hc
  · rw [Nat.mul_comm, Nat.mod_add_div]

/-- In a calm run `old_strategies` is the strategy before the last phase. -/
theorem old_eq_previous {Q : TaskQueue} {cfg : ServerConfig} {s : PhaseState × (ℕ → UInt16)}
    (hpa : cfg.paEnabled = false) (hag : cfg.agentEnabled = true)
    (h1 : cfg.threshold ≠ rnicThreshold) (h0 : cfg.threshold ≠ 0)
    (h : (history Q cfg).RunWith (Calm cfg) s) : ∀ c < groupSize, s.1.strategies.old c = s.2 c := by
  refine h.invariant (P := fun s => ∀ c < groupSize, s.1.strategies.old c = s.2 c) ?_ ?_
  · rintro s ⟨hs, hp⟩ c -
    rw [hp, hs.1]
  · intro s a t ih hcalm hn c hc
    obtain ⟨u, hu, rfl⟩ := Option.map_eq_some_iff.mp hn
    rw [next_old hpa hag h1 h0 hu]
    by_cases hne : s.2 c = s.1.strategies.credit c
    · rw [ih c hc, hne, ite_self]
    · refine if_pos ?_
      unfold decided
      rw [makePlan_decisions _ _ hag hpa h1 h0]
      exact (hcalm c hc hne).mem_skewedDecisions Q hc

/-- Sub-slot 0 of a cold slot stays with the CPU while its requests alone reach the threshold. -/
theorem notMem_skewedDecisions {Q : TaskQueue} {cfg : ServerConfig} {t : Tally} {i : ℕ}
    (hi : i < maxCounterNum) (hcold : t.realCounters i = 0)
    (hc : overThres cfg t ≤ t.cCounters i) (h0 : 0 < overThres cfg t) :
    i ∉ (skewedDecisions Q cfg t).map (·.idx) := by
  have hlt : t.realCounters i < overThres cfg t := by rwa [hcold]
  rw [skewedDecisions_eq, map_append]
  intro h
  rcases mem_append.mp h with h | h
  · rw [map_flatMap] at h
    obtain ⟨k, hk, hik⟩ := mem_flatMap.mp h
    have hmod := mem_slotCredits (mem_range.mp hk) ((coldDecisions_sublist _ _ t k).subset hik)
    rw [Nat.mod_eq_of_lt hi] at hmod
    subst hmod
    have hr : List.range slotGranularity = 0 :: (List.range 15).map Nat.succ := range_succ_eq_map
    unfold coldDecisions at hik
    rw [if_neg (UInt64.not_le.mpr hlt), hr, coldLoop] at hik
    simp only [Nat.zero_mul, hcold, add_zero] at hik
    rw [if_neg (UInt64.not_lt.mpr hc)] at hik
    obtain ⟨j, hj, hij⟩ := mem_map.mp ((coldLoop_sublist ..).subset hik)
    obtain ⟨j, -, rfl⟩ := mem_map.mp hj
    unfold maxCounterNum at hij
    omega
  · rw [map_map] at h
    obtain ⟨turn, hturn, hslot⟩ := mem_map.mp h
    obtain ⟨hidx, hhot, -⟩ :=
      mem_cpuTasks ((trace_phaseTurns Q cfg (takesTask t) t).mem_tasks hturn)
    have hmod : turn.task.idx = i := by
      have hslot : turn.task.idx + turn.task.innerIdx * maxCounterNum = i := hslot
      rw [← Nat.mod_eq_of_lt hi, ← hslot, Nat.add_mul_mod_self_right, Nat.mod_eq_of_lt hidx]
    rw [hmod] at hhot
    exact UInt64.not_le.mpr hlt hhot

/-- The phase after `hotAndIdle`: the CPU serves counter 0. -/
def offloadedAndIdle (n : UInt64) : PhaseInput :=
  ⟨[0, 1], fun i => if i = 1 then ⟨0, Pi.single 0 n⟩ else idle⟩

section
variable (n : UInt64) (t : Tally)

def offloadedTally : Tally := t.newPhase.scanAll [0, 1] (offloadedAndIdle n).reports

theorem offloadedTally_realCounters (k : ℕ) : (offloadedTally n t).realCounters k = 0 := by
  have h := (Tally.scanAll_newPhase_real t [0, 1] (offloadedAndIdle n).reports (by simp) k).1
  exact h.trans (by simp [offloadedAndIdle, idle, slotReq_zero])

theorem offloadedTally_cCounters {k : ℕ} (hk : k < groupSize) :
    (offloadedTally n t).cCounters k = if k = 0 then n else 0 := by
  have h := (Tally.scanAll_newPhase_counters t [0, 1] (offloadedAndIdle n).reports (by simp) hk).2
  exact h.trans (by simp [offloadedAndIdle, idle, Pi.single_apply])

theorem offloadedTally_overThres (hn : n / 512 ≤ 100000) :
    overThres twoMachines (offloadedTally n t) = 100000 := by
  have hr : (offloadedTally n t).reqPerSlot = n / 512 := by
    unfold Tally.reqPerSlot offloadedTally
    rw [Tally.scanAll_ttReq]
    have h0 : ((offloadedAndIdle n).reports 0).total + ((offloadedAndIdle n).reports 0).onload =
        0 := by
      simp [offloadedAndIdle, total, onload, idle]
    have h1 : ((offloadedAndIdle n).reports 1).total + ((offloadedAndIdle n).reports 1).onload =
        n := by
      simp [offloadedAndIdle, total, onload, groupSize, maxCounterNum, slotGranularity]
    simp [h0, h1, Tally.newPhase]
  unfold overThres
  rw [hr]
  exact if_neg (UInt64.not_lt.mpr hn)

theorem quiet_offloadedTally (i : ℕ) (hi : i < maxCounterNum) :
    Quiet twoMachines (offloadedTally 50000 t) i := by
  have hmap : (slotCredits i).map (offloadedTally 50000 t).cCounters =
      (List.range slotGranularity).map fun j => if i = 0 ∧ j = 0 then 50000 else 0 := by
    unfold slotCredits
    rw [map_map]
    refine map_congr_left fun j hj => ?_
    have hj := mem_range.mp hj
    unfold maxCounterNum slotGranularity at *
    rw [Function.comp_apply, offloadedTally_cCounters]
    · simp
    · unfold groupSize maxCounterNum slotGranularity
      omega
  unfold Quiet
  rw [offloadedTally_overThres _ _ (by decide), offloadedTally_realCounters, hmap]
  by_cases h0 : i = 0 <;> simp only [h0] <;> decide

end

/-- The run of `hotAndIdle`, which gives counter 0 to the CPU. -/
theorem exists_after_hot : ∃ s, (history (MaxQueue.first _) twoMachines).RunWith
    (Calm twoMachines) (s, fun _ => 0) ∧ s.strategies.credit 0 = 1 ∧ s.strategies.old 0 = 0 := by
  have hn := phases_next (MaxQueue.first _) boot hotAndIdle_order
  have hstart : (history (MaxQueue.first _) twoMachines).start (boot, fun _ => 0) :=
    ⟨⟨rfl, rfl⟩, rfl⟩
  obtain ⟨ds, hd⟩ := hotTally_decisions boot.tally
  refine ⟨_, .step hotAndIdle (.start hstart) (fun _ _ hne => absurd rfl hne) ?_,
    PhaseState.run_credit boot hd, ?_⟩
  · simp only [history, hn, Option.map_some]
    rfl
  · rw [next_old rfl rfl (by decide) (by decide) hn]
    exact ite_self _

theorem offloadedAndIdle_next (s : PhaseState) (n : UInt64) :
    (phases (MaxQueue.first _) twoMachines).next s (offloadedAndIdle n) =
      some (s.run (MaxQueue.first _) twoMachines (offloadedAndIdle n)) :=
  phases_next (MaxQueue.first _) s (.refl [0, 1])

theorem history_next (s : PhaseState) (n : UInt64) (prev : ℕ → UInt16) :
    (history (MaxQueue.first _) twoMachines).next (s, prev) (offloadedAndIdle n) =
      some (s.run (MaxQueue.first _) twoMachines (offloadedAndIdle n), s.strategies.credit) := by
  simp [history, offloadedAndIdle_next]

/-- The RNIC takes counter 0 back in the phase after the switch. -/
theorem old_eq_previous_twoPhases : ∃ s, (history (MaxQueue.first _) twoMachines).RunWith
    (Calm twoMachines) s ∧ s.2 0 = 1 ∧ ∀ c < groupSize, s.1.strategies.old c = s.2 c := by
  obtain ⟨s, hs, h1, -⟩ := exists_after_hot
  have hrun := hs.step (offloadedAndIdle 50000)
    (fun c _ _ => quiet_offloadedTally s.tally _ (Nat.mod_lt c (by decide))) (history_next ..)
  exact ⟨_, hrun, h1, old_eq_previous rfl rfl (by decide) (by decide) hrun⟩

theorem zero_notMem_decided (s : PhaseState) :
    0 ∉ decided (MaxQueue.first _) twoMachines s (offloadedAndIdle 200000) := by
  have hr := offloadedTally_realCounters 200000 s.tally 0
  have hc := offloadedTally_cCounters 200000 s.tally (k := 0) (by decide)
  have ho := offloadedTally_overThres 200000 s.tally (by decide)
  unfold decided
  rw [makePlan_decisions _ _ rfl rfl (by decide) (by decide)]
  apply notMem_skewedDecisions (t := offloadedTally 200000 s.tally) (by decide) hr
  · rw [hc, ho]
    decide
  · rw [ho]
    decide

/-- Counter 0 is switched in one phase and left alone in the next, which keeps the older credit. -/
theorem not_old_eq_previous_offloaded :
    twoMachines.paEnabled = false ∧ twoMachines.agentEnabled = true ∧
      twoMachines.threshold ≠ rnicThreshold ∧ twoMachines.threshold ≠ 0 ∧
      ∃ s, (history (MaxQueue.first _) twoMachines).Reachable s ∧
        ∃ c < groupSize, s.1.strategies.old c ≠ s.2 c := by
  obtain ⟨s, hs, h1, h0⟩ := exists_after_hot
  have hold := next_old rfl rfl (by decide) (by decide) (offloadedAndIdle_next s 200000) 0
  rw [if_neg (zero_notMem_decided s), h0] at hold
  obtain ⟨t, ht, ho⟩ : ∃ t, (history (MaxQueue.first _) twoMachines).Reachable
      (t, s.strategies.credit) ∧ t.strategies.old 0 = 0 :=
    ⟨_, hs.reachable.step (offloadedAndIdle 200000) (history_next ..), hold⟩
  exact ⟨rfl, rfl, by decide, by decide, _, ht, 0, by decide, by simp [ho, h1]⟩

end Fusa.Agent

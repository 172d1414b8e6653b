import Fusa.Agent.RoundInv

/-! The scan of the machines keeps the invariant of the rounds. -/
namespace Fusa.Agent.State
open List

variable {cfg : ServerConfig} {s t : State} {i : ℕ}

section
variable (h : s.Inv cfg)
include h

theorem Inv.reading_of_phase (hi : i < cfg.nrMachine) {k : ℕ} (hpc : s.pc = .check k)
    (hs : s.scanned i = false) (hp : (s.machines i).unitPhase = s.phase) :
    (s.machines i).Reading s.rounds 0 := by
  have hsees := h.sees i hi
  simp only [hpc, ServerPc.Sees, hs] at hsees
  obtain ⟨hg, ha, hr⟩ := hsees.2
  have hc := (h.machine i hi).counts
  have hphase : s.phase = UInt64.ofNat (s.rounds + 1) := by
    rw [h.phase, hpc]
    rfl
  rw [(h.machine i hi).unitPhase, hphase, Wrap.ofNat_inj_of_near (by omega) (by omega)] at hp
  exact ⟨hg, ha, hp, hr.readInto (by omega)⟩

theorem Inv.order_perm (hm : s.pc.made = false) (hc : s.tally.scannedCnt = cfg.nrMachine) :
    s.order.Perm (List.range cfg.nrMachine) := by
  have hcnt := h.scannedCnt hm
  have hsub : s.order ⊆ List.range cfg.nrMachine := by
    intro k hk
    exact mem_range.mpr ((h.order hm k).mp hk).1
  apply (subperm_of_subset h.nodup hsub).perm_of_length_le
  rw [length_range]
  omega

theorem Inv.scanned_of_scannedCnt (hm : s.pc.made = false) (hc : s.tally.scannedCnt = cfg.nrMachine)
    (hi : i < cfg.nrMachine) : s.scanned i = true := by
  have hmem := (h.order_perm hm hc).mem_iff.mpr (mem_range.mpr hi)
  exact ((h.order hm i).mp hmem).2.1

theorem Inv.scanningStep {pc₀ pc : ServerPc} (hpc₀ : s.pc = pc₀) (hm₀ : pc₀.made = false)
    {machines : ℕ → Machine} {scanned : ℕ → Bool} {tally : Tally} {order : List ℕ}
    (hpc' : pc.made = false)
    (hm : ∀ k, machines k = s.machines k ∨ ∃ j, machines k = (s.machines k).readEntry j)
    (hsees : ∀ k < cfg.nrMachine, pc₀.Sees s.rounds k (s.scanned k) (s.pending k) (s.machines k) →
      pc.Sees s.rounds k (scanned k) (s.pending k) (machines k))
    (hread : ∀ i j, pc = .read i j → i < cfg.nrMachine) (hnodup : order.Nodup) (horder : ∀ k,
      (k ∈ s.order ↔ k < cfg.nrMachine ∧ s.scanned k = true ∧ pc₀.reading k = false) →
      (k ∈ order ↔ k < cfg.nrMachine ∧ scanned k = true ∧ pc.reading k = false))
    (hcnt : s.tally.scannedCnt = s.order.length → tally.scannedCnt = order.length) :
    ({ s with pc, machines, scanned, tally, order } : State).Inv cfg := by
  subst hpc₀
  have hpc := hm₀
  have hs := ServerPc.bumped_of_not_made hpc
  have hs' := ServerPc.bumped_of_not_made hpc'
  have hphase := h.phase
  have hmade := h.made
  rw [hs.1] at hphase
  rw [hpc] at hmade
  have hframe : ∀ k, (machines k).hist.acked = (s.machines k).hist.acked ∧
      (machines k).hist.received = (s.machines k).hist.received ∧
      (machines k).strategies = (s.machines k).strategies := by
    intro k
    rcases hm k with hk | ⟨j, hk⟩ <;> rw [hk] <;> exact ⟨rfl, rfl, rfl⟩
  have hacked : ∑ k ∈ Finset.range cfg.nrMachine, (machines k).hist.acked =
      s.acked cfg.nrMachine := Finset.sum_congr rfl fun k _ => (hframe k).1
  exact { h with
    machine := by
      intro k hk
      show (machines k).Inv
      rcases hm k with he | ⟨j, he⟩
      · rw [he]
        exact h.machine k hk
      · rw [he]
        exact (h.machine k hk).readEntry j
    sees := fun k hk => hsees k hk (h.sees k hk)
    phase := hphase.trans (by rw [hs'.1])
    made := hmade.trans (by rw [hpc'])
    consensus := h.consensus.trans (congrArg UInt64.ofNat hacked.symm)
    noWrap := by
      unfold acked
      rw [hacked]
      exact h.noWrap
    tmp := fun hp => absurd hp (by simp [hs'.2.1])
    turn := fun hp => absurd hp hs'.2.2.2
    read := hread
    nodup := hnodup
    order := fun _ k => horder k (h.order hpc k)
    scannedCnt := fun _ => hcnt (h.scannedCnt hpc)
    plan := fun hp => absurd hp (by simp [hpc'])
    uniform := fun hp => absurd hp (by simp [hs'.2.2.1])
    payload := by
      intro k hk h0 hr
      exact (hframe k).2.2.trans (h.payload k hk h0 ((hframe k).2.1.symm.trans hr)) }

theorem Inv.skip (hpc : s.pc = .check i) (k : ℕ) : ({ s with pc := .check k } : State).Inv cfg := by
  apply h.scanningStep hpc rfl rfl
  · exact fun k => .inl rfl
  · exact fun _ _ => id
  · intro i j hp
    cases hp
  · exact h.nodup
  · exact fun _ => id
  · exact id

theorem Inv.enter (hpc : s.pc = .check i) (hi : i < cfg.nrMachine)
    (hp : (s.machines i).unitPhase = s.phase) (hs : s.scanned i = false) : (s.enter i).Inv cfg := by
  have hr := h.reading_of_phase hi hpc hs hp
  apply h.scanningStep hpc rfl rfl
  · exact fun k => .inl rfl
  · intro k _ hk
    simp only [ServerPc.Sees] at hk ⊢
    by_cases he : k = i
    · subst he
      simp only [if_true, Function.update_self, true_and]
      exact ⟨hk.1, by decide, hr⟩
    · simp only [he, if_false, Function.update_of_ne he]
      exact hk
  · intro k j hk
    cases hk
    exact hi
  · exact h.nodup
  · intro k hord
    rw [hord]
    by_cases he : k = i
    · subst he
      simp [ServerPc.reading, hs]
    · simp [ServerPc.reading, he]
  · exact id

end

theorem setMachine_readEntry (i j k : ℕ) :
    (s.setMachine i ((s.machines i).readEntry j)).machines k = s.machines k ∨
      ∃ l, (s.setMachine i ((s.machines i).readEntry j)).machines k =
        (s.machines k).readEntry l := by
  by_cases he : k = i
  · subst he
    exact .inr ⟨j, setMachine_self⟩
  · exact .inl (setMachine_of_ne he)

theorem Inv.lt_of_reading {j : ℕ} (h : s.Inv cfg) (hpc : s.pc = .read i j) : j < groupSize := by
  have hsi := h.sees i (h.read i j hpc)
  rw [hpc] at hsi
  simp only [ServerPc.Sees, if_true] at hsi
  exact hsi.2.2.1

theorem Inv.reading {j : ℕ} (h : s.Inv cfg) (hpc : s.pc = .read i j) :
    i < cfg.nrMachine ∧ s.pending i = false ∧ s.scanned i = true ∧ i ∉ s.order ∧
      ((s.machines i).readEntry j).Reading s.rounds (j + 1) := by
  have hi := h.read i j hpc
  have hsi := h.sees i hi
  have hord := h.order
  rw [hpc] at hsi hord
  simp only [ServerPc.Sees, if_true] at hsi
  refine ⟨hi, hsi.1, hsi.2.1, ?_, hsi.2.2.2.readEntry (h.machine i hi)⟩
  rw [hord rfl i]
  simp [ServerPc.reading]

theorem Inv.readNext {j : ℕ} (h : s.Inv cfg) (hpc : s.pc = .read i j) (hj : j + 1 < groupSize) :
    (s.readEntry i j).Inv cfg := by
  obtain ⟨hi, hp, hs, -, hr⟩ := h.reading hpc
  apply h.scanningStep hpc rfl rfl
  · exact setMachine_readEntry i j
  · intro k _ hk'
    show ServerPc.Sees s.rounds k (s.scanned k) (s.pending k)
      ((s.setMachine i _).machines k) (.read i (j + 1))
    simp only [ServerPc.Sees] at hk' ⊢
    by_cases he : k = i
    · subst he
      rw [setMachine_self, if_pos rfl]
      exact ⟨hp, hs, hj, hr⟩
    · rw [setMachine_of_ne he]
      simpa only [he, if_false] using hk'
  · intro k l hk
    cases hk
    exact hi
  · exact h.nodup
  · exact fun _ => id
  · exact id

theorem Inv.readLast {j : ℕ} (h : s.Inv cfg) (hpc : s.pc = .read i j) (hj : groupSize ≤ j + 1) :
    ((s.readEntry i j).endScan i).Inv cfg := by
  obtain ⟨hi, hp, hs, hni, hr⟩ := h.reading hpc
  have hlt := h.lt_of_reading hpc
  have hje : j + 1 = groupSize := by omega
  rw [hje] at hr
  apply h.scanningStep hpc rfl rfl
  · exact setMachine_readEntry i j
  · intro k _ hk'
    show ServerPc.Sees s.rounds k (s.scanned k) (s.pending k)
      ((s.setMachine i _).machines k) (.check (i + 1))
    simp only [ServerPc.Sees] at hk' ⊢
    by_cases he : k = i
    · subst he
      rw [setMachine_self, hs, if_pos rfl]
      exact ⟨hp, hr.1, hr.2.1, hr.2.2.1, hr.2.2.2.readUpTo⟩
    · rw [setMachine_of_ne he]
      simpa only [he, if_false] using hk'
  · intro k l hk
    cases hk
  · rw [← concat_eq_append]
    exact h.nodup.concat hni
  · intro k hord
    show k ∈ s.order ++ [i] ↔ k < cfg.nrMachine ∧ s.scanned k = true ∧ _
    rw [mem_append, mem_singleton, hord]
    by_cases he : k = i
    · subst he
      simp [ServerPc.reading, hi, hs]
    · simp [ServerPc.reading, he]
  · intro hcnt
    show s.tally.scannedCnt + 1 = (s.order ++ [i]).length
    rw [hcnt, length_append, length_singleton]

end Fusa.Agent.State

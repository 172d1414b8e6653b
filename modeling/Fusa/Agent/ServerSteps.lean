import Fusa.Agent.Scanning

/-! The steps of `server_func` keep the invariant of the rounds. -/
namespace Fusa.Agent.State

variable {cfg : ServerConfig} {s t : State} {i : ℕ}

theorem acked_eq {n q : ℕ} (h : ∀ k < n, (s.machines k).hist.acked = q) : s.acked n = n * q := by
  unfold State.acked
  rw [Finset.sum_congr rfl fun k hk => h k (Finset.mem_range.mp hk)]
  simp

theorem Inv.make (Q : TaskQueue) (h : s.Inv cfg) (hpc : s.pc = .check i)
    (hc : s.tally.scannedCnt = cfg.nrMachine) : (s.make Q cfg).Inv cfg := by
  have hsees := h.sees
  have hphase := h.phase
  have hmade := h.made
  rw [hpc] at hsees hphase hmade
  have hw : ∀ k < cfg.nrMachine, s.pending k = false ∧ (s.machines k).Waits s.rounds := by
    intro k hk
    have hk' := hsees k hk
    rwa [h.scanned_of_scannedCnt (hpc ▸ rfl) hc hk] at hk'
  have hacked : s.acked cfg.nrMachine = cfg.nrMachine * s.rounds :=
    acked_eq fun k hk => (hw k hk).2.2.1
  have hmaking : (s.make Q cfg).pc.making = true := rfl
  have hm := ServerPc.made_of_making hmaking
  exact { h with
    sees := hw
    phase := hphase
    made := congrArg (· + 1) hmade
    start := by
      intro _
      show s.consensus = UInt64.ofNat (cfg.nrMachine * s.made)
      rw [h.consensus, hacked, hmade]
      rfl
    tmp := fun hp => absurd hp (by simp [hm.2.1])
    turn := fun hp => absurd hp hm.2.2.1
    read := fun k j hp => absurd hp (hm.2.2.2 k j)
    order := fun hp => absurd hp (by simp [hm.1])
    scannedCnt := fun hp => absurd hp (by simp [hm.1])
    plan := fun _ hp => makePlan_isUniform Q s.tally hp
    uniform := by
      intro hp
      cases hp
    payload := by
      intro k hk _ hr
      have := (hw k hk).2.1
      have hr : (s.machines k).hist.received = s.made + 1 := hr
      rw [hmade] at hr
      omega }

section
variable (h : s.Inv cfg)
include h

theorem Inv.makingStep (hpc : s.pc.making = true) {pc : ServerPc} {phase : UInt64}
    {strategies : Strategies} {uniformStrag : Resp} (hpc' : pc.making = true)
    (hphase : phase = UInt64.ofNat (s.rounds + 1 + pc.bumped.toNat))
    (huni : pc.ready = true → ∀ i, sendsUniform cfg s.plan i = true → uniformStrag.phase = phase) :
    ({ s with pc, phase, strategies, uniformStrag } : State).Inv cfg := by
  have hm := ServerPc.made_of_making hpc
  have hm' := ServerPc.made_of_making hpc'
  have hmade := h.made
  have hplan := h.plan
  rw [hm.1] at hmade hplan
  exact { h with
    sees := fun k hk => (ServerPc.sees_of_making hpc').mpr
      ((ServerPc.sees_of_making hpc).mp (h.sees k hk))
    phase := hphase
    made := hmade.trans (by rw [hm'.1])
    tmp := fun hp => absurd hp (by simp [hm'.2.1])
    turn := fun hp => absurd hp hm'.2.2.1
    read := fun k j hp => absurd hp (hm'.2.2.2 k j)
    order := fun hp => absurd hp (by simp [hm'.1])
    scannedCnt := fun hp => absurd hp (by simp [hm'.1])
    plan := fun _ => hplan rfl
    uniform := huni
    payload := by
      intro k hk _ hr
      have hw := ((ServerPc.sees_of_making hpc).mp (h.sees k hk)).2.1
      have hr : (s.machines k).hist.received = s.made := hr
      simp only [Bool.toNat_true] at hmade
      omega }

theorem Inv.postingStep {pc₀ pc : ServerPc} (hpc₀ : s.pc = pc₀) (hp₀ : pc₀.posting = true)
    {pending : ℕ → Bool} (hpc' : pc.posting = true)
    (hsees : ∀ k < cfg.nrMachine, pc₀.Sees s.rounds k (s.scanned k) (s.pending k) (s.machines k) →
      pc.Sees s.rounds k (s.scanned k) (pending k) (s.machines k))
    (hturn : pc = .testTurn → cfg.nrMachine * s.rounds < s.acked cfg.nrMachine) :
    ({ s with pc, pending } : State).Inv cfg := by
  subst hpc₀
  have hm := ServerPc.made_of_posting hp₀
  have hm' := ServerPc.made_of_posting hpc'
  have hphase := h.phase
  have hmade := h.made
  have hplan := h.plan
  rw [hm.1] at hmade hplan
  rw [hm.2.1] at hphase
  exact { h with
    sees := fun k hk => hsees k hk (h.sees k hk)
    phase := hphase.trans (by rw [hm'.2.1])
    made := hmade.trans (by rw [hm'.1])
    tmp := fun _ => h.tmp hp₀
    turn := hturn
    read := fun k j hp => absurd hp (hm'.2.2.2 k j)
    order := fun hp => absurd hp (by simp [hm'.1])
    scannedCnt := fun hp => absurd hp (by simp [hm'.1])
    plan := fun _ => hplan rfl
    uniform := fun _ => h.uniform hm.2.2.1 }

theorem Inv.number (hpc : s.pc = .publish []) : ({ s with
      phase := s.phase + 1
      pc := if cfg.makesStrategy then .uniformPhase else .snapshot } : State).Inv cfg := by
  have hphase : s.phase + 1 = UInt64.ofNat (s.rounds + 1 + 1) := by
    rw [h.phase, hpc, Wrap.ofNat_succ (s.rounds + 1)]
    rfl
  have hplan := h.plan
  rw [hpc] at hplan
  cases hm : cfg.makesStrategy with
  | true =>
    apply h.makingStep (hpc ▸ rfl) rfl hphase
    intro hp
    cases hp
  | false =>
    apply h.makingStep (hpc ▸ rfl) rfl hphase
    intro _ i hi
    simp [sendsUniform, hplan rfl hm] at hi

theorem Inv.snapshotStep (hpc : s.pc = .snapshot) : ({ s with
      tmpConsensus := s.consensus, scanned := fun _ => false, pc := .post 0 } : State).Inv cfg := by
  have hsees := h.sees
  have hphase := h.phase
  have hmade := h.made
  have hplan := h.plan
  have huni := h.uniform
  rw [hpc] at hsees hphase hmade hplan huni
  exact { h with
    sees := by
      intro k hk
      have hk' := hsees k hk
      simp only [ServerPc.Sees] at hk' ⊢
      simp [hk']
    phase := hphase
    made := hmade
    tmp := by
      intro _
      have hacked : s.acked cfg.nrMachine = cfg.nrMachine * s.rounds :=
        acked_eq fun k hk => (hsees k hk).2.2.1
      rw [h.consensus, hacked]
    turn := fun hp => by cases hp
    read := fun _ _ hp => by cases hp
    order := fun hp => by cases hp
    scannedCnt := fun hp => by cases hp
    plan := hplan
    uniform := huni }

theorem Inv.postStep (hpc : s.pc = .post i) :
    ({ s with pending := Function.update s.pending i true, pc := .post (i + 1) } : State).Inv
      cfg := by
  apply h.postingStep hpc rfl rfl
  · intro k hk hk'
    simp only [ServerPc.Sees] at hk' ⊢
    by_cases he : k = i
    · subst he
      cases hp : s.pending k <;> simp_all
    · have hlt : i + 1 ≤ k ↔ i ≤ k := by omega
      cases hp : s.pending k <;> simp_all
      omega
  · intro hp
    cases hp

theorem Inv.posted (hpc : s.pc = .post i) (hi : cfg.nrMachine ≤ i) :
    ({ s with pc := .poll 0 } : State).Inv cfg := by
  apply h.postingStep hpc rfl rfl
  · intro k hk hk'
    have hlt : ¬ i ≤ k := by omega
    simp only [ServerPc.Sees, hlt, if_false] at hk' ⊢
    cases hp : s.pending k <;> simp_all
  · intro hp
    cases hp

theorem Inv.pollStep (hpc : s.pc = .poll i) (hp : s.pending i = false) :
    ({ s with pc := .poll (i + 1) } : State).Inv cfg := by
  apply h.postingStep hpc rfl rfl
  · intro k hk hk'
    simp only [ServerPc.Sees] at hk' ⊢
    by_cases he : k = i
    · subst he
      simp_all
    · have hlt : i + 1 ≤ k ↔ i ≤ k := by omega
      simp only [hlt]
      exact hk'
  · intro hp
    cases hp

theorem Inv.polled (hpc : s.pc = .poll i) (hi : cfg.nrMachine ≤ i) :
    ({ s with pc := .testChanged } : State).Inv cfg := by
  apply h.postingStep hpc rfl rfl
  · intro k hk hk'
    have hlt : ¬ i ≤ k := by omega
    simp only [ServerPc.Sees, hlt] at hk' ⊢
    cases hp : s.pending k <;> simp_all
  · intro hp
    cases hp

theorem Inv.changed_iff (hpc : s.pc = .testChanged ∨ s.pc = .testTurn) :
    s.tmpConsensus = s.consensus ↔ s.acked cfg.nrMachine = cfg.nrMachine * s.rounds := by
  obtain ⟨k, hk, ha⟩ := h.exists_acked
  have hno := h.noWrap
  rw [h.tmp (by rcases hpc with hpc | hpc <;> rw [hpc] <;> rfl), h.consensus]
  rw [ha] at hno ⊢
  rw [Wrap.changed_iff hk hno]
  omega

theorem Inv.turn_iff (hpc : s.pc = .testTurn) : s.consensus.toNat % cfg.nrMachine = 0 ↔
      s.acked cfg.nrMachine = cfg.nrMachine * s.rounds + cfg.nrMachine := by
  obtain ⟨k, hk, ha⟩ := h.exists_acked
  have hno := h.noWrap
  have hlt := h.turn hpc
  rw [h.consensus]
  rw [ha] at hno hlt ⊢
  rw [Wrap.turn_iff (by omega) hk hno]
  omega

theorem Inv.changed (hpc : s.pc = .testChanged) (hc : s.tmpConsensus ≠ s.consensus) :
    ({ s with pc := .testTurn } : State).Inv cfg := by
  apply h.postingStep hpc rfl rfl
  · exact fun _ _ => id
  · intro _
    obtain ⟨k, -, ha⟩ := h.exists_acked
    rw [Ne, h.changed_iff (.inl hpc)] at hc
    omega

theorem Inv.wait (hpc : s.pc = .testTurn) : ({ s with pc := .testChanged } : State).Inv cfg := by
  apply h.postingStep hpc rfl rfl
  · exact fun _ _ => id
  · intro hp
    cases hp

/-- The round is over: all machines have sent their FAA. -/
theorem Inv.newRound (hpc : s.pc = .testTurn) (hc : s.consensus.toNat % cfg.nrMachine = 0) :
    s.newRound.Inv cfg := by
  rw [h.turn_iff hpc] at hc
  have hsees := h.sees
  have hphase := h.phase
  have hmade := h.made
  rw [hpc] at hsees hphase hmade
  exact { h with
    sees := by
      intro k hk
      obtain ⟨hs, hp, hr, hu⟩ := hsees k hk
      simp only [State.newRound, ServerPc.Sees, hs, hp]
      exact ⟨trivial, hr, h.acked_of_sum hc hk, hu⟩
    phase := hphase
    made := hmade
    tmp := fun hp => by cases hp
    turn := fun hp => by cases hp
    read := fun _ _ hp => by cases hp
    nodup := List.nodup_nil
    order := by
      intro _ k
      show k ∈ [] ↔ k < cfg.nrMachine ∧ s.scanned k = true ∧ _
      constructor
      · intro hk
        cases hk
      · intro hk
        have := (hsees k hk.1).1
        simp_all
    scannedCnt := fun _ => rfl
    plan := fun hp => by cases hp
    uniform := fun hp => by cases hp }

theorem Inv.serves {Q : TaskQueue} (hn : Serves Q cfg s t) : t.Inv cfg := by
  cases hn with
  | skip i hpc => exact h.skip hpc (i + 1)
  | enter i hpc hi hp hs => exact h.enter hpc hi hp hs
  | again i hpc => exact h.skip hpc 0
  | make i hpc _ hc => exact h.make Q hpc hc
  | readNext i j hpc hj => exact h.readNext hpc hj
  | readLast i j hpc hj => exact h.readLast hpc hj
  | number hpc => exact h.number hpc
  | save d ds hpc | store d ds hpc =>
    apply h.makingStep (hpc ▸ rfl) rfl
    · rw [h.phase, hpc]
      rfl
    · intro hp
      cases hp
  | uniformPhase hpc =>
    apply h.makingStep (hpc ▸ rfl) rfl
    · rw [h.phase, hpc]
      rfl
    · exact fun _ _ _ => rfl
  | snapshot hpc => exact h.snapshotStep hpc
  | post i hpc => exact h.postStep hpc
  | posted i hpc hi => exact h.posted hpc hi
  | poll i hpc _ hp => exact h.pollStep hpc hp
  | polled i hpc hi => exact h.polled hpc hi
  | changed hpc hc => exact h.changed hpc hc
  | wait hpc => exact h.wait hpc
  | leave hpc hc => exact h.newRound hpc hc

end

end Fusa.Agent.State

import Fusa.Agent.LockStep

/-! The agents, access by access, refine the phases: each round of theirs is one phase. -/
namespace Fusa.Agent
open Transition List

/-- The strategies once the stores that are left have been made. -/
def ServerPc.stored (m : Strategies) : ServerPc → Strategies
  | .publish ds => m.applyAll ds
  | .store d ds => (m.store d).applyAll ds
  | _ => m

/-- The scan so far: the machines in `order`, and those entries that were read of another. -/
def ServerPc.partTally (order : List ℕ) (reports : ℕ → Report) (t : Tally) : ServerPc → Tally
  | .read i j => ((t.scanAll order reports).enter i).entries i (reports i) j
  | _ => t.scanAll order reports

def State.roundReport (s : State) (i : ℕ) : Report :=
  (s.machines i).hist.reports.getD s.rounds ⟨fun _ => 0, fun _ => 0⟩

/-- A state of the agents stands for the phase whose strategy was made last. -/
structure Abstracts (cfg : ServerConfig) (s : State) (p : PhaseState) : Prop where
  strategies : s.pc.stored s.strategies = p.strategies
  uniformStrag : s.uniformStrag.credit = p.uniformStrag
  scanning : s.pc.made = false → s.tally = s.pc.partTally s.order s.roundReport p.tally.newPhase
  made : s.pc.made = true → s.tally = p.tally
  sent : ∀ i, p.sent i =
    if sendsUniform cfg s.plan i then p.uniformStrag else p.strategies.credit

variable {Q : TaskQueue} {cfg : ServerConfig} {s t : State} {p : PhaseState} {i : ℕ}

theorem State.Inv.rounds_lt (h : s.Inv cfg) (hm : s.pc.made = false)
    (hi : i ∈ s.order ∨ ∃ j, s.pc = .read i j) : s.rounds < (s.machines i).hist.reports.length := by
  rcases hi with hi | ⟨j, hpc⟩
  · obtain ⟨hin, hs, hr⟩ := (h.order hm i).mp hi
    rcases h.stage_cases hin with hc | ⟨j, hpc, -⟩ | ⟨hw, -⟩ | ⟨-, hw⟩
    · rw [hs] at hc
      exact absurd hc.2.1 (by decide)
    · simp [hpc, ServerPc.reading] at hr
    · exact hw.2.2.2.1
    · exact hw.2.1
  · exact (h.reading hpc).2.2.2.2.2.2.2.lt

variable {j : ℕ} {pc : ServerPc}

theorem State.Inv.unitReport_eq (h : s.Inv cfg) (hpc : s.pc = .read i j) :
    (s.machines i).unitReport = s.roundReport i := by
  have hi := h.read i j hpc
  have hr := (h.reading hpc).2.2.2.2
  have hg : (s.machines i).hist.received = s.rounds := hr.1
  have hp : (s.machines i).hist.phases = s.rounds + 1 := hr.2.2.1
  have hu := (h.machine i hi).unitReport_of_phases (by omega)
  rw [hg] at hu
  unfold State.roundReport
  rw [getD_eq_getElem?_getD, hu, Option.getD_some]

theorem ServerPc.partTally_congr {order : List ℕ} {reports reports' : ℕ → Report} (t : Tally)
    (h : ∀ k, (k ∈ order ∨ ∃ j, pc = .read k j) → reports k = reports' k) :
    pc.partTally order reports t = pc.partTally order reports' t := by
  have hs : t.scanAll order reports = t.scanAll order reports' :=
    Tally.scanAll_congr _ _ _ fun k hk => h k (.inl hk)
  cases pc with
  | read i j =>
    simp only [partTally, hs, h i (.inr ⟨j, rfl⟩)]
  | _ => exact hs

theorem Abstracts.setMachines (ha : Abstracts cfg s p) (h : s.Inv cfg) {machines : ℕ → Machine}
    {pending : ℕ → Bool} {consensus : UInt64}
    (hm : ∀ k, (s.machines k).hist.reports <+: (machines k).hist.reports) :
    Abstracts cfg { s with machines, pending, consensus } p where
  strategies := ha.strategies
  uniformStrag := ha.uniformStrag
  scanning := by
    intro hmade
    have hmade : s.pc.made = false := hmade
    refine (ha.scanning hmade).trans (ServerPc.partTally_congr _ ?_)
    intro k hk
    have hlt := h.rounds_lt hmade hk
    obtain ⟨l, hl⟩ := hm k
    unfold State.roundReport
    rw [← hl, getD_eq_getElem?_getD, getD_eq_getElem?_getD, List.getElem?_append_left hlt]
  made := ha.made
  sent := ha.sent

theorem Abstracts.making (ha : Abstracts cfg s p) (hs : s.pc.made = true) (ht : t.pc.made = true)
    (hst : t.pc.stored t.strategies = s.pc.stored s.strategies)
    (hu : t.uniformStrag.credit = s.uniformStrag.credit) (htally : t.tally = s.tally)
    (hplan : t.plan = s.plan) : Abstracts cfg t p where
  strategies := hst.trans ha.strategies
  uniformStrag := hu.trans ha.uniformStrag
  scanning := fun hm => absurd hm (by simp [ht])
  made := fun _ => htally.trans (ha.made hs)
  sent := by
    rw [hplan]
    exact ha.sent

theorem ServerPc.stored_of_not_making (h : pc.making = false) (m : Strategies) :
    pc.stored m = m := by
  cases pc <;> simp_all [making, stored]

theorem ServerPc.stored_of_not_made (h : pc.made = false) (m : Strategies) : pc.stored m = m := by
  apply stored_of_not_making
  rw [Bool.eq_false_iff]
  intro hm
  rw [(made_of_making hm).1] at h
  cases h

theorem Abstracts.scan (ha : Abstracts cfg s p) (hs : s.pc.made = false) (ht : t.pc.made = false)
    (hst : t.strategies = s.strategies) (hu : t.uniformStrag = s.uniformStrag)
    (hplan : t.plan = s.plan)
    (htally : t.tally = t.pc.partTally t.order t.roundReport p.tally.newPhase) :
    Abstracts cfg t p where
  strategies := by
    rw [ServerPc.stored_of_not_made ht, hst, ← ha.strategies, ServerPc.stored_of_not_made hs]
  uniformStrag := by
    rw [hu]
    exact ha.uniformStrag
  scanning := fun _ => htally
  made := fun hm => absurd hm (by simp [ht])
  sent := by
    rw [hplan]
    exact ha.sent

theorem Abstracts.enter (ha : Abstracts cfg s p) (hpc : s.pc = .check i) :
    Abstracts cfg (s.enter i) p := by
  have ht := ha.scanning (hpc ▸ rfl)
  rw [hpc] at ht
  apply ha.scan (t := s.enter i) (hpc ▸ rfl) rfl rfl rfl rfl
  show s.tally.enter i = _
  rw [ht]
  rfl

theorem roundReport_readEntry (i j : ℕ) : (s.readEntry i j).roundReport = s.roundReport := by
  funext k
  unfold State.roundReport
  have hk : ((s.readEntry i j).machines k).hist.reports = (s.machines k).hist.reports :=
    State.rel_setMachine (m := (s.machines i).readEntry j)
      (R := fun m m' => m'.hist.reports = m.hist.reports) (fun _ => rfl) rfl k
  rw [hk]
  rfl

section
variable (ha : Abstracts cfg s p)
include ha

section
variable (h : s.Inv cfg) (hpc : s.pc = .read i j)
include h hpc

theorem Abstracts.entry : (s.readEntry i j).tally =
      (((p.tally.newPhase.scanAll s.order s.roundReport).enter i).entries i (s.roundReport i)
        (j + 1)) := by
  have ht := ha.scanning (hpc ▸ rfl)
  rw [hpc] at ht
  show s.tally.entry i j _ _ = _
  rw [h.unitReport_eq hpc, ht, Tally.entries_succ]
  rfl

theorem Abstracts.readNext : Abstracts cfg (s.readEntry i j) p := by
  apply ha.scan (t := s.readEntry i j) (hpc ▸ rfl) rfl rfl rfl rfl
  rw [roundReport_readEntry, ha.entry h hpc]
  rfl

theorem Abstracts.readLast (hj : j + 1 = groupSize) :
    Abstracts cfg ((s.readEntry i j).endScan i) p := by
  have hr : ((s.readEntry i j).endScan i).roundReport = s.roundReport := roundReport_readEntry i j
  apply ha.scan (t := (s.readEntry i j).endScan i) (hpc ▸ rfl) rfl rfl rfl rfl
  rw [hr]
  show (s.readEntry i j).tally.leave = p.tally.newPhase.scanAll (s.order ++ [i]) s.roundReport
  rw [ha.entry h hpc, hj, Tally.scanAll_concat]
  rfl

end

theorem Abstracts.make (h : s.Inv cfg) (hpc : s.pc = .check i)
    (hc : s.tally.scannedCnt = cfg.nrMachine) : ∃ b q,
      (phases Q cfg).next p b = some q ∧ Abstracts cfg (s.make Q cfg) q := by
  have hm : s.pc.made = false := by
    rw [hpc]
    rfl
  have ht := ha.scanning hm
  have hst := ha.strategies
  rw [hpc] at ht hst
  have hplan : makePlan Q cfg (p.tally.newPhase.scanAll s.order s.roundReport) =
      makePlan Q cfg s.tally := by
    rw [ht]
    rfl
  refine ⟨⟨s.order, s.roundReport⟩, _, phases_next Q p (h.order_perm hm hc), ?_⟩
  constructor
  · show s.strategies.applyAll _ = p.strategies.applyAll (makePlan Q cfg _).decisions
    rw [hplan, ← hst]
    rfl
  · exact ha.uniformStrag
  · intro hf
    cases hf
  · intro _
    exact ht
  · intro k
    rw [PhaseState.run_sent, hplan]
    rfl

theorem Abstracts.newRound (hpc : s.pc = .testTurn) : Abstracts cfg s.newRound p := by
  have ht := ha.made (hpc ▸ rfl)
  have hst := ha.strategies
  rw [hpc] at hst
  constructor
  · exact hst
  · exact ha.uniformStrag
  · intro _
    show s.tally.newPhase = _
    rw [ht]
    rfl
  · intro hf
    cases hf
  · exact ha.sent

theorem Abstracts.serves (h : s.Inv cfg) (hn : State.Serves Q cfg s t) :
    Abstracts cfg t p ∨ ∃ b q, (phases Q cfg).next p b = some q ∧ Abstracts cfg t q := by
  cases hn with
  | make i hpc _ hc => exact .inr (ha.make h hpc hc)
  | skip i hpc | again i hpc =>
    have ht := ha.scanning (hpc ▸ rfl)
    rw [hpc] at ht
    exact .inl (ha.scan (hpc ▸ rfl) rfl rfl rfl rfl ht)
  | enter i hpc => exact .inl (ha.enter hpc)
  | readNext i j hpc => exact .inl (ha.readNext h hpc)
  | readLast i j hpc hj =>
    have hlt := h.lt_of_reading hpc
    exact .inl (ha.readLast h hpc (by omega))
  | leave hpc => exact .inl (ha.newRound hpc)
  | number hpc =>
    left
    cases hm : cfg.makesStrategy with
    | true | false => exact ha.making (hpc ▸ rfl) rfl (hpc ▸ rfl) rfl rfl rfl
  | save d ds hpc | store d ds hpc | uniformPhase hpc | snapshot hpc | changed hpc | wait hpc
  | post i hpc | posted i hpc | poll i hpc | polled i hpc =>
    exact .inl (ha.making (hpc ▸ rfl) rfl (hpc ▸ rfl) rfl rfl rfl)

theorem Abstracts.next {a : Step} (h : s.Inv cfg) (hn : (agents Q cfg).next s a = some t) :
    Abstracts cfg t p ∨ ∃ b q, (phases Q cfg).next p b = some q ∧ Abstracts cfg t q := by
  have hset : ∀ {i m}, (s.machines i).hist.reports <+: m.hist.reports → ∀ k,
      (s.machines k).hist.reports <+: ((s.setMachine i m).machines k).hist.reports := fun hm =>
    State.rel_setMachine (R := fun m m' => m.hist.reports <+: m'.hist.reports)
      (fun _ => prefix_refl _) hm
  cases State.next_takes hn with
  | server hn => exact ha.serves h hn
  | strategy i => exact .inl (ha.setMachines h (hset (prefix_refl _)))
  | client i found _ hm =>
    exact .inl (ha.setMachines h (hset (Machine.quiet_clientStep hm).reports))
  | copy i j _ _ hm =>
    apply Or.inl (ha.setMachines h (hset _))
    rw [(Machine.copyEntry_frame hm).1]
  | complete i _ hm =>
    apply Or.inl (ha.setMachines h (hset _))
    rw [(Machine.complete_frame hm).1]

end

theorem Abstracts.received (ha : Abstracts cfg s p) (h : s.Inv cfg) (hi : i < cfg.nrMachine)
    (h0 : 0 < s.made) (hr : (s.machines i).hist.received = s.made) :
    (s.machines i).strategies.credit = p.sent i := by
  have hm : s.pc.making = false := by
    rw [Bool.eq_false_iff]
    intro hm
    have hw := ((ServerPc.sees_of_making hm).mp (h.sees i hi)).2.1
    have hmade := h.made
    rw [(ServerPc.made_of_making hm).1] at hmade
    simp only [Bool.toNat_true] at hmade
    omega
  have hst := ha.strategies
  rw [ServerPc.stored_of_not_making hm] at hst
  rw [h.payload i hi h0 hr, ha.sent i, ← ha.uniformStrag, ← hst]
  unfold State.payload
  split <;> rfl

end Fusa.Agent

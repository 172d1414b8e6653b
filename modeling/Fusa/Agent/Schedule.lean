import Fusa.Agent.ServerSteps

/-! A round in which the machines take turns, for any number of machines. -/
namespace Fusa.Agent
open Transition Function

namespace Machine

variable (m : Machine)

def reported (r : Report) : Machine :=
  { m with
    pc := .waitStrategy
    phaseBuf := m.phaseBuf + 1
    mesg := r
    unitReport := r
    unitPhase := m.unitPhase + 1
    hist := { m.hist with reports := m.hist.reports ++ [r], phases := m.hist.phases + 1 } }

def readFirst (n : ℕ) : Machine :=
  { m with hist := { m.hist with reads := m.hist.reads ++ m.unitReport.entryList n } }

theorem readFirst_zero : m.readFirst 0 = m := by
  simp [readFirst, Report.entryList]

theorem readEntry_readFirst (n : ℕ) : (m.readFirst n).readEntry n = m.readFirst (n + 1) := by
  simp [readEntry, readFirst, Report.entryList_succ]

def agreed : Machine :=
  { m with
    pc := .collect
    credit := fun c => if c < groupSize then m.strategies.credit c else m.credit c
    hist := { m.hist with
      installed := m.hist.installed + 1, acks := m.hist.acks + 1, acked := m.hist.acked + 1 } }

end Machine

namespace State
variable {Q : TaskQueue} {cfg : ServerConfig} {s : State}

def mapMachines (s : State) (n : ℕ) (f : ℕ → Machine → Machine) : State :=
  { s with machines := fun k => if k < n then f k (s.machines k) else s.machines k }

theorem mapMachines_zero (f : ℕ → Machine → Machine) : s.mapMachines 0 f = s := by
  simp [mapMachines]

theorem mapMachines_succ (n : ℕ) (f : ℕ → Machine → Machine) :
    (s.mapMachines n f).setMachine n (f n (s.machines n)) = s.mapMachines (n + 1) f := by
  simp only [mapMachines, setMachine, State.mk.injEq, and_true]
  exact update_eq_iff.mpr ⟨by simp, fun k hk => by simp [le_iff_lt_or_eq, hk]⟩

variable {i n : ℕ}

@[simp] theorem mapMachines_self (n : ℕ) (f : ℕ → Machine → Machine) :
    (s.mapMachines n f).machines n = s.machines n := by
  simp [mapMachines]

theorem reaches_report (r : Report) (hi : i < cfg.nrMachine) (hpc : (s.machines i).pc = .collect)
    (hq : (s.machines i).qp = []) :
    (agents Q cfg).Reaches s (s.setMachine i ((s.machines i).reported r)) := by
  refine ⟨[.client i r, .client i r, .client i r, .complete i, .complete i, .client i r], ?_⟩
  simp [System.exec, agents, next, hi, Machine.clientStep, hpc, hq, setMachine, completeStep,
    Machine.complete, Machine.reported]

theorem reaches_reports (reports : ℕ → Report)
    (h : ∀ k < cfg.nrMachine, (s.machines k).pc = .collect ∧ (s.machines k).qp = []) :
    ∀ n ≤ cfg.nrMachine, (agents Q cfg).Reaches s
      (s.mapMachines n fun k m => m.reported (reports k)) := by
  refine .count (mapMachines_zero _) fun n hn => ?_
  have hm := h n hn
  rw [← mapMachines_succ, ← mapMachines_self (s := s) n fun k m => m.reported (reports k)]
  apply reaches_report (reports n) hn
  · rw [mapMachines_self]
    exact hm.1
  · rw [mapMachines_self]
    exact hm.2

def scanPart (s : State) (i n : ℕ) : State :=
  { s.setMachine i ((s.machines i).readFirst n) with
    pc := .read i n
    scanned := Function.update s.scanned i true
    tally := (s.tally.enter i).entries i (s.machines i).unitReport n }

def scan (s : State) (i : ℕ) : State :=
  { s.setMachine i ((s.machines i).readFirst groupSize) with
    pc := .check (i + 1)
    scanned := Function.update s.scanned i true
    tally := s.tally.scan i (s.machines i).unitReport
    order := s.order ++ [i] }

theorem readEntry_scanPart : (s.scanPart i n).readEntry i n = s.scanPart i (n + 1) := by
  have hm : (s.scanPart i n).machines i = (s.machines i).readFirst n := setMachine_self
  have hu : ((s.machines i).readFirst n).unitReport = (s.machines i).unitReport := rfl
  unfold readEntry
  rw [hm, hu, Machine.readEntry_readFirst]
  simp only [scanPart, setMachine, update_idem, Tally.entries_succ]

theorem next_scanPart (hn : n + 1 < groupSize) :
    (agents Q cfg).next (s.scanPart i n) .server = some (s.scanPart i (n + 1)) :=
  congrArg some ((if_pos hn).trans readEntry_scanPart)

theorem next_scanPart_last (hn : n + 1 = groupSize) :
    (agents Q cfg).next (s.scanPart i n) .server = some (s.scan i) := by
  have he : (s.scanPart i n).readStep i n = ((s.scanPart i n).readEntry i n).endScan i :=
    if_neg (by omega)
  show some ((s.scanPart i n).readStep i n) = _
  rw [he, readEntry_scanPart]
  simp only [scanPart, endScan, scan, Tally.scan, ← hn, setMachine]

theorem reaches_scanPart :
    ∀ n ≤ groupSize - 1, (agents Q cfg).Reaches (s.scanPart i 0) (s.scanPart i n) :=
  .count rfl fun _ hk => .step _ (next_scanPart (by omega))

theorem reaches_scan (hi : i < cfg.nrMachine) (hpc : s.pc = .check i)
    (hp : (s.machines i).unitPhase = s.phase) (hs : s.scanned i = false) :
    (agents Q cfg).Reaches s (s.scan i) := by
  have henter : (agents Q cfg).next s .server = some (s.scanPart i 0) := by
    simp [agents, next, serverStep, hpc, checkStep, hi, hp, hs, scanPart, setMachine,
      Machine.readFirst_zero, Tally.entries]
  have hlast : 8191 + 1 = groupSize := by decide
  apply (System.Reaches.step _ henter).trans
  apply (reaches_scanPart 8191 le_rfl).trans
  exact .step _ (next_scanPart_last hlast)

def scanFirst (s : State) (n : ℕ) : State :=
  { s.mapMachines n fun _ m => m.readFirst groupSize with
    pc := .check n
    scanned := fun k => decide (k < n) || s.scanned k
    tally := s.tally.scanAll (List.range n) fun k => (s.machines k).unitReport
    order := s.order ++ List.range n }

@[simp] theorem scanFirst_self (n : ℕ) : (s.scanFirst n).machines n = s.machines n := by
  simp [scanFirst, mapMachines]

theorem scan_scanFirst (n : ℕ) : (s.scanFirst n).scan n = s.scanFirst (n + 1) := by
  have hmap := mapMachines_succ (s := s) n fun _ m => m.readFirst groupSize
  have hscanned : update (fun k => decide (k < n) || s.scanned k) n true =
      fun k => decide (k < n + 1) || s.scanned k :=
    update_eq_iff.mpr ⟨by simp, fun k hk => by simp [le_iff_lt_or_eq, hk]⟩
  unfold scan
  rw [scanFirst_self]
  simp only [scanFirst, setMachine, mapMachines, List.range_succ, ← List.append_assoc] at hmap ⊢
  simp only [State.mk.injEq, and_true, true_and] at hmap ⊢
  refine ⟨hmap, hscanned, ?_⟩
  simp [Tally.scanAll]

theorem reaches_scanFirst (hpc : s.pc = .check 0)
    (hp : ∀ k < cfg.nrMachine, (s.machines k).unitPhase = s.phase ∧ s.scanned k = false) :
    ∀ n ≤ cfg.nrMachine, (agents Q cfg).Reaches s (s.scanFirst n) := by
  refine .count (by simp [scanFirst, mapMachines, ← hpc, Tally.scanAll]) fun n hn => ?_
  have hk := hp n hn
  rw [← scan_scanFirst]
  apply reaches_scan hn rfl
  · rw [scanFirst_self]
    exact hk.1
  · simp [scanFirst, hk.2]

theorem reaches_publish (ds : List Decision) (hpc : s.pc = .publish ds) : (agents Q cfg).Reaches s
      { s with pc := .publish [], strategies := s.strategies.applyAll ds } := by
  induction ds generalizing s with
  | nil =>
    have h0 : { s with pc := .publish [], strategies := s.strategies.applyAll [] } = s := by
      rw [← hpc]
      rfl
    rw [h0]
    exact .refl s
  | cons d ds ih =>
    have hsave : (agents Q cfg).next s .server =
        some { s with strategies := s.strategies.saveOld d, pc := .store d ds } := by
      simp [agents, next, serverStep, hpc]
    apply (System.Reaches.step _ hsave).trans
    apply System.Reaches.trans (.step (.server) rfl)
    exact ih rfl

theorem next_make (hpc : s.pc = .check cfg.nrMachine) (hc : s.tally.scannedCnt = cfg.nrMachine) :
    (agents Q cfg).next s .server = some (s.make Q cfg) := by
  simp [agents, next, serverStep, hpc, checkStep, hc, make]

def numbered (cfg : ServerConfig) (s : State) : State :=
  { s with
    pc := .post 0
    phase := s.phase + 1
    uniformStrag := if cfg.makesStrategy then { s.uniformStrag with phase := s.phase + 1 }
      else s.uniformStrag
    tmpConsensus := s.consensus
    scanned := fun _ => false }

theorem reaches_numbered (hpc : s.pc = .publish []) :
    (agents Q cfg).Reaches s (s.numbered cfg) := by
  cases hm : cfg.makesStrategy with
  | true =>
    refine ⟨[.server, .server, .server], ?_⟩
    simp [System.exec, agents, next, serverStep, hpc, hm, numbered]
  | false =>
    refine ⟨[.server, .server], ?_⟩
    simp [System.exec, agents, next, serverStep, hpc, hm, numbered]

theorem reaches_posts (hpc : s.pc = .post 0) (hp : s.pending = fun _ => false) :
    ∀ n ≤ cfg.nrMachine, (agents Q cfg).Reaches s
      { s with pc := .post n, pending := fun k => decide (k < n) } := by
  refine .count (by simp [← hpc, ← hp]) fun n hlt => .step .server ?_
  have hu : update (fun k => decide (k < n)) n true = fun k => decide (k < n + 1) :=
    update_eq_iff.mpr ⟨by simp, fun k hk => by simp [le_iff_lt_or_eq, hk]⟩
  simp [agents, next, serverStep, hlt, hu]

theorem reaches_strategies (hp : s.pending = fun k => decide (k < cfg.nrMachine)) :
    ∀ n ≤ cfg.nrMachine, (agents Q cfg).Reaches s
      { s.mapMachines n fun k m => m.receive (s.payload cfg k) with
        pending := fun k => decide (n ≤ k ∧ k < cfg.nrMachine) } := by
  refine .count (by simp [mapMachines_zero, ← hp]) fun n hlt => .step (.strategy n) ?_
  have hmap := mapMachines_succ (s := s) n fun k m => m.receive (s.payload cfg k)
  have hu : update (fun k => decide (n ≤ k ∧ k < cfg.nrMachine)) n false =
      fun k => decide (n + 1 ≤ k ∧ k < cfg.nrMachine) :=
    update_eq_iff.mpr ⟨by simp, fun k hk => by simp [lt_iff_le_and_ne, hk.symm]⟩
  have hm := mapMachines_self (s := s) n fun k m => m.receive (s.payload cfg k)
  simp only [agents, next, hlt, le_refl, and_self, decide_true, if_true, hu, hm]
  rw [← hmap]
  rfl

theorem reaches_polls (hpc : s.pc = .poll 0) (hp : s.pending = fun _ => false) :
    ∀ n ≤ cfg.nrMachine, (agents Q cfg).Reaches s { s with pc := .poll n } := by
  refine .count (by rw [← hpc]) fun n hlt => .step .server ?_
  simp [agents, next, serverStep, hlt, hp]

theorem reaches_sent (hpc : s.pc = .post 0) (hp : s.pending = fun _ => false) :
    (agents Q cfg).Reaches s
      { s.mapMachines cfg.nrMachine fun k m => m.receive (s.payload cfg k) with
        pc := .testChanged } := by
  apply (reaches_posts hpc hp _ le_rfl).trans
  have hend : (agents Q cfg).next { s with
      pc := .post cfg.nrMachine, pending := fun k => decide (k < cfg.nrMachine) } .server =
      some { s with pc := .poll 0, pending := fun k => decide (k < cfg.nrMachine) } := by
    simp [agents, next, serverStep]
  apply (System.Reaches.step _ hend).trans
  apply (reaches_strategies rfl _ le_rfl).trans
  have hnone : (fun k => decide (cfg.nrMachine ≤ k ∧ k < cfg.nrMachine)) = s.pending := by
    funext k
    rw [hp]
    simp
  rw [hnone]
  have hpoll : (agents Q cfg).Reaches
      { s.mapMachines cfg.nrMachine fun k m => m.receive (s.payload cfg k) with pc := .poll 0 }
      { s.mapMachines cfg.nrMachine fun k m => m.receive (s.payload cfg k) with
        pc := .poll cfg.nrMachine } := by
    apply reaches_polls rfl _ _ le_rfl
    exact hp
  apply System.Reaches.trans hpoll
  apply System.Reaches.step .server
  simp [agents, next, serverStep]

theorem reaches_agreed (hi : i < cfg.nrMachine) (hpc : (s.machines i).pc = .waitStrategy)
    (hq : (s.machines i).qp = []) (hp : (s.machines i).strategies.phase = (s.machines i).phaseBuf) :
    (agents Q cfg).Reaches s
      { s.setMachine i (s.machines i).agreed with consensus := s.consensus + 1 } := by
  let r : Report := ⟨fun _ => 0, fun _ => 0⟩
  refine ⟨[.client i r, .client i r, .client i r, .client i r, .complete i, .client i r], ?_⟩
  simp [System.exec, agents, next, hi, Machine.clientStep, hpc, hq, hp, setMachine, completeStep,
    Machine.complete, Machine.agreed]

theorem reaches_agreements
    (h : ∀ k < cfg.nrMachine, (s.machines k).pc = .waitStrategy ∧ (s.machines k).qp = [] ∧
      (s.machines k).strategies.phase = (s.machines k).phaseBuf) :
    ∀ n ≤ cfg.nrMachine, (agents Q cfg).Reaches s { s.mapMachines n fun _ m => m.agreed with
      consensus := s.consensus + UInt64.ofNat n } := by
  refine .count (by simp [mapMachines_zero]) fun n hn => ?_
  have hk := h n hn
  have hm := mapMachines_self (s := s) n fun _ m => m.agreed
  rw [← mapMachines_succ, Wrap.ofNat_succ, ← add_assoc, ← hm]
  apply reaches_agreed hn
  · rw [hm]
    exact hk.1
  · rw [hm]
    exact hk.2.1
  · rw [hm]
    exact hk.2.2

theorem reaches_leave (hpc : s.pc = .testChanged) (hc : s.tmpConsensus ≠ s.consensus)
    (ht : s.consensus.toNat % cfg.nrMachine = 0) :
    (agents Q cfg).Reaches s { s with
      pc := .check 0, tally := s.tally.newPhase, rounds := s.rounds + 1, order := [] } := by
  refine ⟨[.server, .server], ?_⟩
  simp [System.exec, agents, next, serverStep, hpc, hc, ht]

end State
end Fusa.Agent

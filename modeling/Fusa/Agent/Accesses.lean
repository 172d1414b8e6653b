import Fusa.Agent.Phases
import Fusa.Agent.Machine

/-! The agents as one system, and what each access to shared memory can do. -/
namespace Fusa.Agent
open Transition Function Option

inductive ServerPc
  | check (i : ℕ)
  | read (i j : ℕ)
  | publish (ds : List Decision)
  | store (d : Decision) (ds : List Decision)
  | uniformPhase
  | snapshot
  | post (i : ℕ)
  | poll (i : ℕ)
  | testChanged
  | testTurn

/-- Server and machines; `pending` are strategy writes not yet in effect, the last five history. -/
structure State where
  machines : ℕ → Machine
  phase : UInt64
  strategies : Strategies
  uniformStrag : Resp
  consensus : UInt64
  pc : ServerPc
  scanned : ℕ → Bool
  tally : Tally
  plan : Plan
  tmpConsensus : UInt64
  pending : ℕ → Bool
  rounds : ℕ
  order : List ℕ
  made : ℕ
  startConsensus : UInt64
  prevCredit : ℕ → UInt16

/-- A step of the server or of a client, or a write or work request that takes effect. -/
inductive Step
  | server
  | strategy (i : ℕ)
  | client (i : ℕ) (found : Report)
  | copy (i j : ℕ)
  | complete (i : ℕ)

/-- The branches that set all credits alike leave `uniform_strag.phase` as it is. -/
def ServerConfig.makesStrategy (cfg : ServerConfig) : Bool :=
  cfg.agentEnabled && cfg.threshold != rnicThreshold && cfg.threshold != 0

variable (Q : TaskQueue) (cfg : ServerConfig) (s : State)

theorem makePlan_isUniform {cfg : ServerConfig} (t : Tally)
    (h : cfg.makesStrategy = false) : (makePlan Q cfg t).isUniform = true := by
  unfold ServerConfig.makesStrategy at h
  unfold makePlan
  by_cases h1 : cfg.agentEnabled = false ∨ cfg.threshold = rnicThreshold
  · rw [if_pos h1]
  · rw [if_neg h1, if_pos (by simp_all)]

namespace State

def setMachine (i : ℕ) (m : Machine) : State :=
  { s with machines := update s.machines i m }

def payload (i : ℕ) : Resp :=
  if sendsUniform cfg s.plan i then s.uniformStrag else ⟨s.phase, s.strategies.credit⟩

/-- The loop over the machines, and what follows when all of them are scanned. -/
def checkStep (i : ℕ) : State :=
  if i < cfg.nrMachine then
    if (s.machines i).unitPhase = s.phase ∧ s.scanned i = false then
      { s with
        pc := .read i 0
        scanned := update s.scanned i true
        tally := s.tally.enter i }
    else { s with pc := .check (i + 1) }
  else if s.tally.scannedCnt = cfg.nrMachine then
    let plan := makePlan Q cfg s.tally
    { s with
      pc := .publish plan.decisions
      plan
      made := s.made + 1
      startConsensus := s.consensus
      prevCredit := s.strategies.credit }
  else { s with pc := .check 0 }

def readStep (i j : ℕ) : State :=
  let r := (s.machines i).unitReport
  let tally := s.tally.entry i j (r.counters j) (r.cCounters j)
  let s := s.setMachine i ((s.machines i).readEntry j)
  if j + 1 < groupSize then { s with pc := .read i (j + 1), tally }
  else { s with pc := .check (i + 1), tally := tally.leave, order := s.order ++ [i] }

def serverStep : Option State :=
  match s.pc with
  | .check i => some (s.checkStep Q cfg i)
  | .read i j => some (s.readStep i j)
  | .publish [] => some { s with
      phase := s.phase + 1
      pc := if cfg.makesStrategy then .uniformPhase else .snapshot }
  | .publish (d :: ds) => some { s with strategies := s.strategies.saveOld d, pc := .store d ds }
  | .store d ds => some { s with strategies := s.strategies.store d, pc := .publish ds }
  | .uniformPhase => some { s with
      uniformStrag := { s.uniformStrag with phase := s.phase }, pc := .snapshot }
  | .snapshot => some { s with
      tmpConsensus := s.consensus, scanned := fun _ => false, pc := .post 0 }
  | .post i =>
    if i < cfg.nrMachine then
      some { s with pending := update s.pending i true, pc := .post (i + 1) }
    else some { s with pc := .poll 0 }
  | .poll i =>
    if i < cfg.nrMachine then
      if s.pending i then none else some { s with pc := .poll (i + 1) }
    else some { s with pc := .testChanged }
  | .testChanged => if s.tmpConsensus = s.consensus then none else some { s with pc := .testTurn }
  | .testTurn =>
    if s.consensus.toNat % cfg.nrMachine = 0 then
      some { s with
        pc := .check 0, tally := s.tally.newPhase, rounds := s.rounds + 1, order := [] }
    else some { s with pc := .testChanged }

def completeStep (i : ℕ) : Option State :=
  (s.machines i).complete.map fun m =>
    { s.setMachine i m with
      consensus := if (s.machines i).qp.head? = some .faaConsensus then s.consensus + 1
        else s.consensus }

def next : Step → Option State
  | .server => s.serverStep Q cfg
  | .strategy i =>
    if i < cfg.nrMachine ∧ s.pending i = true then
      some { s.setMachine i ((s.machines i).receive (s.payload cfg i)) with
        pending := update s.pending i false }
    else none
  | .client i found =>
    if i < cfg.nrMachine then ((s.machines i).clientStep found).map (s.setMachine i) else none
  | .copy i j =>
    if i < cfg.nrMachine ∧ j < groupSize then ((s.machines i).copyEntry j).map (s.setMachine i)
    else none
  | .complete i => if i < cfg.nrMachine then s.completeStep i else none

end State

def Machine.start : Machine where
  pc := .collect
  phaseBuf := 1
  mesg := ⟨fun _ => 0, fun _ => 0⟩
  strategies := ⟨0, fun _ => 0⟩
  credit := fun _ => 0
  qp := []
  unitReport := ⟨fun _ => 0, fun _ => 0⟩
  unitPhase := 0
  hist := ⟨[], [], 0, 0, 0, 0, 0⟩

def Tally.zero : Tally where
  scannedCnt := 0
  tmpSlotReq := 0
  counters := fun _ => 0
  cCounters := fun _ => 0
  realCounters := fun _ => 0
  realCCounters := fun _ => 0
  ttRnicReq := 0
  ttCpuReq := 0
  machine := fun _ => ⟨true, 0, 0, 0⟩

def State.start : State where
  machines := fun _ => .start
  phase := 1
  strategies := ⟨fun _ => 0, fun _ => 0⟩
  uniformStrag := ⟨0, fun _ => 0⟩
  consensus := 0
  pc := .check 0
  scanned := fun _ => false
  tally := .zero
  plan := ⟨[], true, fun _ => true⟩
  tmpConsensus := 0
  pending := fun _ => false
  rounds := 0
  order := []
  made := 0
  startConsensus := 0
  prevCredit := fun _ => 0

def agents : System State Step where
  start s := s = .start
  next := State.next Q cfg

namespace State
variable {Q : TaskQueue} {cfg : ServerConfig} {s t : State} {a : Step}

def enter (s : State) (i : ℕ) : State :=
  { s with
    pc := .read i 0
    scanned := Function.update s.scanned i true
    tally := s.tally.enter i }

def make (Q : TaskQueue) (cfg : ServerConfig) (s : State) : State :=
  { s with
    pc := .publish (makePlan Q cfg s.tally).decisions
    plan := makePlan Q cfg s.tally
    made := s.made + 1
    startConsensus := s.consensus
    prevCredit := s.strategies.credit }

def readEntry (s : State) (i j : ℕ) : State :=
  let r := (s.machines i).unitReport
  { s.setMachine i ((s.machines i).readEntry j) with
    pc := .read i (j + 1)
    tally := s.tally.entry i j (r.counters j) (r.cCounters j) }

def endScan (s : State) (i : ℕ) : State :=
  { s with pc := .check (i + 1), tally := s.tally.leave, order := s.order ++ [i] }

def newRound (s : State) : State :=
  { s with pc := .check 0, tally := s.tally.newPhase, rounds := s.rounds + 1, order := [] }

inductive Serves (Q : TaskQueue) (cfg : ServerConfig) (s : State) : State → Prop
  | skip (i : ℕ) (hpc : s.pc = .check i) (hi : i < cfg.nrMachine)
      (hp : ¬ ((s.machines i).unitPhase = s.phase ∧ s.scanned i = false)) :
      Serves Q cfg s { s with pc := .check (i + 1) }
  | enter (i : ℕ) (hpc : s.pc = .check i) (hi : i < cfg.nrMachine)
      (hp : (s.machines i).unitPhase = s.phase) (hs : s.scanned i = false) :
      Serves Q cfg s (s.enter i)
  | again (i : ℕ) (hpc : s.pc = .check i) (hi : cfg.nrMachine ≤ i)
      (hc : s.tally.scannedCnt ≠ cfg.nrMachine) : Serves Q cfg s { s with pc := .check 0 }
  | make (i : ℕ) (hpc : s.pc = .check i) (hi : cfg.nrMachine ≤ i)
      (hc : s.tally.scannedCnt = cfg.nrMachine) : Serves Q cfg s (s.make Q cfg)
  | readNext (i j : ℕ) (hpc : s.pc = .read i j) (hj : j + 1 < groupSize) :
      Serves Q cfg s (s.readEntry i j)
  | readLast (i j : ℕ) (hpc : s.pc = .read i j) (hj : groupSize ≤ j + 1) :
      Serves Q cfg s ((s.readEntry i j).endScan i)
  | number (hpc : s.pc = .publish []) :
      Serves Q cfg s { s with
        phase := s.phase + 1
        pc := if cfg.makesStrategy then .uniformPhase else .snapshot }
  | save (d : Decision) (ds : List Decision) (hpc : s.pc = .publish (d :: ds)) :
      Serves Q cfg s { s with strategies := s.strategies.saveOld d, pc := .store d ds }
  | store (d : Decision) (ds : List Decision) (hpc : s.pc = .store d ds) :
      Serves Q cfg s { s with strategies := s.strategies.store d, pc := .publish ds }
  | uniformPhase (hpc : s.pc = .uniformPhase) :
      Serves Q cfg s { s with
        uniformStrag := { s.uniformStrag with phase := s.phase }, pc := .snapshot }
  | snapshot (hpc : s.pc = .snapshot) :
      Serves Q cfg s { s with
        tmpConsensus := s.consensus, scanned := fun _ => false, pc := .post 0 }
  | post (i : ℕ) (hpc : s.pc = .post i) (hi : i < cfg.nrMachine) :
      Serves Q cfg s { s with pending := Function.update s.pending i true, pc := .post (i + 1) }
  | posted (i : ℕ) (hpc : s.pc = .post i) (hi : cfg.nrMachine ≤ i) :
      Serves Q cfg s { s with pc := .poll 0 }
  | poll (i : ℕ) (hpc : s.pc = .poll i) (hi : i < cfg.nrMachine) (hp : s.pending i = false) :
      Serves Q cfg s { s with pc := .poll (i + 1) }
  | polled (i : ℕ) (hpc : s.pc = .poll i) (hi : cfg.nrMachine ≤ i) :
      Serves Q cfg s { s with pc := .testChanged }
  | changed (hpc : s.pc = .testChanged) (hc : s.tmpConsensus ≠ s.consensus) :
      Serves Q cfg s { s with pc := .testTurn }
  | wait (hpc : s.pc = .testTurn) (hc : s.consensus.toNat % cfg.nrMachine ≠ 0) :
      Serves Q cfg s { s with pc := .testChanged }
  | leave (hpc : s.pc = .testTurn) (hc : s.consensus.toNat % cfg.nrMachine = 0) :
      Serves Q cfg s s.newRound

theorem checkStep_serves (i : ℕ) (hpc : s.pc = .check i) :
    Serves Q cfg s (s.checkStep Q cfg i) := by
  unfold checkStep
  by_cases hi : i < cfg.nrMachine
  · rw [if_pos hi]
    split
    · rename_i hp
      exact .enter i hpc hi hp.1 hp.2
    · exact .skip i hpc hi ‹_›
  · rw [if_neg hi]
    split
    · exact .make i hpc (Nat.le_of_not_lt hi) ‹_›
    · exact .again i hpc (Nat.le_of_not_lt hi) ‹_›

theorem readStep_serves (i j : ℕ) (hpc : s.pc = .read i j) : Serves Q cfg s (s.readStep i j) := by
  unfold readStep
  by_cases hj : j + 1 < groupSize
  · simp only [hj, if_true]
    exact .readNext i j hpc hj
  · simp only [hj, if_false]
    exact .readLast i j hpc (Nat.le_of_not_lt hj)

theorem serverStep_serves (hn : s.serverStep Q cfg = some t) : Serves Q cfg s t := by
  unfold serverStep at hn
  cases hpc : s.pc with
  | check i =>
    simp only [hpc] at hn
    cases hn
    exact checkStep_serves i hpc
  | read i j =>
    simp only [hpc] at hn
    cases hn
    exact readStep_serves i j hpc
  | publish ds =>
    cases ds with
    | nil =>
      simp only [hpc] at hn
      cases hn
      exact .number hpc
    | cons d ds =>
      simp only [hpc] at hn
      cases hn
      exact .save d ds hpc
  | store d ds =>
    simp only [hpc] at hn
    cases hn
    exact .store d ds hpc
  | uniformPhase =>
    simp only [hpc] at hn
    cases hn
    exact .uniformPhase hpc
  | snapshot =>
    simp only [hpc] at hn
    cases hn
    exact .snapshot hpc
  | post i =>
    simp only [hpc] at hn
    split_ifs at hn with hi
    · cases hn
      exact .post i hpc hi
    · cases hn
      exact .posted i hpc (Nat.le_of_not_lt hi)
  | poll i =>
    simp only [hpc] at hn
    split_ifs at hn with hi hp
    · cases hn
      exact .poll i hpc hi (Bool.eq_false_iff.mpr hp)
    · cases hn
      exact .polled i hpc (Nat.le_of_not_lt hi)
  | testChanged =>
    simp only [hpc] at hn
    split_ifs at hn with hc
    cases hn
    exact .changed hpc hc
  | testTurn =>
    simp only [hpc] at hn
    split_ifs at hn with hc
    · cases hn
      exact .leave hpc hc
    · cases hn
      exact .wait hpc hc

inductive Takes (Q : TaskQueue) (cfg : ServerConfig) (s : State) : Step → State → Prop
  | server {t : State} (h : Serves Q cfg s t) : Takes Q cfg s .server t
  | strategy (i : ℕ) (hi : i < cfg.nrMachine) (hp : s.pending i = true) :
      Takes Q cfg s (.strategy i) { s.setMachine i ((s.machines i).receive (s.payload cfg i)) with
        pending := Function.update s.pending i false }
  | client (i : ℕ) (found : Report) {m : Machine} (hi : i < cfg.nrMachine)
      (hm : (s.machines i).clientStep found = some m) :
      Takes Q cfg s (.client i found) (s.setMachine i m)
  | copy (i j : ℕ) {m : Machine} (hi : i < cfg.nrMachine) (hj : j < groupSize)
      (hm : (s.machines i).copyEntry j = some m) : Takes Q cfg s (.copy i j) (s.setMachine i m)
  | complete (i : ℕ) {m : Machine} (hi : i < cfg.nrMachine)
      (hm : (s.machines i).complete = some m) :
      Takes Q cfg s (.complete i) { s.setMachine i m with
        consensus := if (s.machines i).qp.head? = some .faaConsensus then s.consensus + 1
          else s.consensus }

theorem next_takes (hn : (agents Q cfg).next s a = some t) : Takes Q cfg s a t := by
  cases a with
  | server => exact .server (serverStep_serves hn)
  | strategy i =>
    simp only [agents, State.next, ite_none_right_eq_some, Option.some.injEq] at hn
    rw [← hn.2]
    exact .strategy i hn.1.1 hn.1.2
  | client i found =>
    simp only [agents, State.next, ite_none_right_eq_some, map_eq_some_iff] at hn
    obtain ⟨hi, m, hm, rfl⟩ := hn
    exact .client i found hi hm
  | copy i j =>
    simp only [agents, State.next, ite_none_right_eq_some, map_eq_some_iff] at hn
    obtain ⟨hi, m, hm, rfl⟩ := hn
    exact .copy i j hi.1 hi.2 hm
  | complete i =>
    simp only [agents, State.next, completeStep, ite_none_right_eq_some, map_eq_some_iff] at hn
    obtain ⟨hi, m, hm, rfl⟩ := hn
    exact .complete i hi hm

end State
end Fusa.Agent

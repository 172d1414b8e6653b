import Fusa.Agent.Strategy

/-! The loop of `start_client` on one machine, and its queue pair to the agent server. -/
namespace Fusa.Agent
open Option

/-- A strategy with the number of the phase it is for. -/
structure Resp where
  phase : UInt64
  credit : ℕ → UInt16

inductive ClientPc
  | collect
  | postReport
  | postPhase
  | pollPhase
  | waitStrategy
  | install
  | waitSync
  | postConsensus
  | pollConsensus
  deriving DecidableEq

/-- The work requests of the client: its report, and the two FAAs. -/
inductive Wqe
  | writeReport
  | faaPhase
  | faaConsensus
  deriving DecidableEq

/-- The reports collected, the entries read, and the FAAs, strategies and installs so far. -/
structure History where
  reports : List Report
  reads : List (UInt64 × UInt64)
  phases : ℕ
  received : ℕ
  installed : ℕ
  acks : ℕ
  acked : ℕ

/-- A client: its `client_layout`, driver region, pending work requests and `machine_unit`. -/
structure Machine where
  pc : ClientPc
  phaseBuf : UInt64
  mesg : Report
  strategies : Resp
  credit : ℕ → UInt16
  qp : List Wqe
  unitReport : Report
  unitPhase : UInt64
  hist : History

def Report.setEntry (r : Report) (j : ℕ) (v c : UInt64) : Report :=
  ⟨Function.update r.counters j v, Function.update r.cCounters j c⟩

namespace Machine

/-- The client's next action; `collect` finds `found`, and `wait_sync` may return at any time. -/
def clientStep (found : Report) (m : Machine) : Option Machine :=
  match m.pc with
  | .collect => some { m with
      pc := .postReport
      mesg := found
      hist := { m.hist with reports := m.hist.reports ++ [found] } }
  | .postReport => some { m with pc := .postPhase, qp := m.qp ++ [.writeReport] }
  | .postPhase => some { m with
      pc := .pollPhase, phaseBuf := m.phaseBuf + 1, qp := m.qp ++ [.faaPhase] }
  | .pollPhase => if m.qp = [] then some { m with pc := .waitStrategy } else none
  | .waitStrategy =>
    if m.strategies.phase = m.phaseBuf then some { m with pc := .install } else none
  | .install => some { m with
      pc := .waitSync
      credit := fun c => if c < groupSize then m.strategies.credit c else m.credit c
      hist := { m.hist with installed := m.hist.installed + 1 } }
  | .waitSync => some { m with pc := .postConsensus }
  | .postConsensus => some { m with
      pc := .pollConsensus
      qp := m.qp ++ [.faaConsensus]
      hist := { m.hist with acks := m.hist.acks + 1 } }
  | .pollConsensus => if m.qp = [] then some { m with pc := .collect } else none

/-- The write of the report may take effect entry by entry. -/
def copyEntry (j : ℕ) (m : Machine) : Option Machine :=
  if m.qp.head? = some .writeReport then some { m with
    unitReport := m.unitReport.setEntry j (m.mesg.counters j) (m.mesg.cCounters j) }
  else none

def complete (m : Machine) : Option Machine :=
  match m.qp with
  | [] => none
  | .writeReport :: qp => some { m with qp, unitReport := m.mesg }
  | .faaPhase :: qp => some { m with
      qp, unitPhase := m.unitPhase + 1, hist := { m.hist with phases := m.hist.phases + 1 } }
  | .faaConsensus :: qp => some { m with qp, hist := { m.hist with acked := m.hist.acked + 1 } }

/-- The server's write of a strategy takes effect. -/
def receive (strategies : Resp) (m : Machine) : Machine :=
  { m with strategies, hist := { m.hist with received := m.hist.received + 1 } }

def readEntry (j : ℕ) (m : Machine) : Machine :=
  { m with hist := { m.hist with
      reads := m.hist.reads ++ [(m.unitReport.counters j, m.unitReport.cCounters j)] } }

/-- Where the client stands in its round, by the number of its reports. -/
def Stage (m : Machine) : Prop :=
  let h := m.hist
  let n := h.reports.length
  match m.pc with
  | .collect => m.qp = [] ∧ h.phases = n ∧ h.received = n ∧ h.installed = n ∧ h.acks = n ∧
      h.acked = n
  | .postReport => m.qp = [] ∧ h.phases + 1 = n ∧ h.received + 1 = n ∧ h.installed + 1 = n ∧
      h.acks + 1 = n ∧ h.acked + 1 = n
  | .postPhase => (m.qp = [.writeReport] ∨ m.qp = [] ∧ m.unitReport = m.mesg) ∧
      h.phases + 1 = n ∧ h.received + 1 = n ∧ h.installed + 1 = n ∧ h.acks + 1 = n ∧
      h.acked + 1 = n
  | .pollPhase => ((m.qp = [.writeReport, .faaPhase] ∨
        m.qp = [.faaPhase] ∧ m.unitReport = m.mesg) ∧ h.phases + 1 = n ∧ h.received + 1 = n ∨
        m.qp = [] ∧ h.phases = n ∧ (h.received + 1 = n ∨ h.received = n)) ∧
      h.installed + 1 = n ∧ h.acks + 1 = n ∧ h.acked + 1 = n
  | .waitStrategy => m.qp = [] ∧ h.phases = n ∧ (h.received + 1 = n ∨ h.received = n) ∧
      h.installed + 1 = n ∧ h.acks + 1 = n ∧ h.acked + 1 = n
  | .install => m.qp = [] ∧ h.phases = n ∧ h.received = n ∧ h.installed + 1 = n ∧
      h.acks + 1 = n ∧ h.acked + 1 = n
  | .waitSync | .postConsensus => m.qp = [] ∧ h.phases = n ∧ h.received = n ∧ h.installed = n ∧
      h.acks + 1 = n ∧ h.acked + 1 = n
  | .pollConsensus => (m.qp = [.faaConsensus] ∧ h.acked + 1 = n ∨ m.qp = [] ∧ h.acked = n) ∧
      h.phases = n ∧ h.received = n ∧ h.installed = n ∧ h.acks = n

/-- The number that `phase_buf` stands for. -/
def phaseNo (m : Machine) : ℕ :=
  match m.pc with
  | .postReport | .postPhase => m.hist.reports.length
  | _ => m.hist.reports.length + 1

structure Inv (m : Machine) : Prop where
  stage : m.Stage
  phaseBuf : m.phaseBuf = UInt64.ofNat m.phaseNo
  unitPhase : m.unitPhase = UInt64.ofNat m.hist.phases
  strategiesPhase : m.strategies.phase =
    if m.hist.received = 0 then 0 else UInt64.ofNat (m.hist.received + 1)
  mesg : m.hist.reports ≠ [] → m.hist.reports.getLast? = some m.mesg
  unitReport : m.hist.phases = m.hist.reports.length → m.hist.reports ≠ [] →
    m.unitReport = m.mesg
  credit : m.hist.installed = m.hist.received → 0 < m.hist.received →
    ∀ c < groupSize, m.credit c = m.strategies.credit c

section
variable {m m' : Machine}

theorem Inv.counts (h : m.Inv) : m.hist.acked ≤ m.hist.acks ∧ m.hist.acks ≤ m.hist.installed ∧
      m.hist.installed ≤ m.hist.received ∧ m.hist.received ≤ m.hist.phases ∧
      m.hist.phases ≤ m.hist.reports.length ∧ m.hist.reports.length ≤ m.hist.acked + 1 := by
  have hs := h.stage
  unfold Stage at hs
  cases hpc : m.pc <;> simp only [hpc] at hs <;> omega

theorem Inv.received_of_phase (h : m.Inv) (hpc : m.pc = .waitStrategy)
    (he : m.strategies.phase = m.phaseBuf) : m.hist.received = m.hist.reports.length := by
  have hs := h.stage
  simp only [Stage, hpc] at hs
  rw [h.strategiesPhase, h.phaseBuf] at he
  simp only [phaseNo, hpc] at he
  by_contra hne
  have hl : m.hist.reports.length = m.hist.received + 1 := by omega
  by_cases h0 : m.hist.received = 0
  · rw [if_pos h0, hl, h0] at he
    exact absurd he (by decide)
  · rw [if_neg h0, hl, Wrap.ofNat_inj_of_near (by omega) (by omega)] at he
    omega

variable {found : Report} {j : ℕ}

section
variable (h : m.Inv)
include h

theorem Inv.clientStep (hn : m.clientStep found = some m') : m'.Inv := by
  have hs := h.stage
  have hb := h.phaseBuf
  unfold Stage at hs
  unfold phaseNo at hb
  unfold Machine.clientStep at hn
  cases hpc : m.pc with
  | collect =>
    simp only [hpc, some.injEq] at hs hb hn
    subst hn
    have hlen : m.hist.phases ≠ m.hist.reports.length + 1 := by omega
    exact { h with
      stage := by simp [Stage, hs]
      phaseBuf := by simp [phaseNo, hb]
      mesg := by simp
      unitReport := by simp [hlen] }
  | postReport | waitSync | postConsensus =>
    simp only [hpc, some.injEq] at hs hb hn
    subst hn
    exact { h with stage := by simp [Stage, hs], phaseBuf := by simp [phaseNo, hb] }
  | postPhase =>
    simp only [hpc, some.injEq] at hs hb hn
    subst hn
    have hst : Stage { m with
        pc := .pollPhase, phaseBuf := m.phaseBuf + 1, qp := m.qp ++ [.faaPhase] } := by
      rcases hs with ⟨hq | hq, hs⟩ <;> simp [Stage, hs, hq]
    exact { h with stage := hst, phaseBuf := by simp [phaseNo, hb, Wrap.ofNat_succ] }
  | pollPhase =>
    simp only [hpc, ite_none_right_eq_some, some.injEq] at hs hb hn
    obtain ⟨hq, rfl⟩ := hn
    have hst : Stage { m with pc := .waitStrategy } := by
      simpa [Stage, hq, and_assoc] using hs
    exact { h with stage := hst, phaseBuf := by simp [phaseNo, hb] }
  | waitStrategy =>
    simp only [hpc, ite_none_right_eq_some, some.injEq] at hs hb hn
    obtain ⟨he, rfl⟩ := hn
    have hg := h.received_of_phase hpc he
    exact { h with stage := by simp [Stage, hs, hg], phaseBuf := by simp [phaseNo, hb] }
  | install =>
    simp only [hpc, some.injEq] at hs hb hn
    subst hn
    exact { h with
      stage := by simp [Stage, hs]
      phaseBuf := by simp [phaseNo, hb]
      credit := fun _ _ c hc => if_pos hc }
  | pollConsensus =>
    simp only [hpc, ite_none_right_eq_some, some.injEq] at hs hb hn
    obtain ⟨hq, rfl⟩ := hn
    have hst : Stage { m with pc := .collect } := by
      simp only [hq, reduceCtorEq, false_and, false_or, true_and] at hs
      simp only [Stage, hq, true_and]
      omega
    exact { h with stage := hst, phaseBuf := by simp [phaseNo, hb] }

theorem Inv.qp_cases : m.qp = [] ∨ m.pc = .postPhase ∧ m.qp = [.writeReport] ∨
    m.pc = .pollPhase ∧ m.qp = [.writeReport, .faaPhase] ∨ m.pc = .pollPhase ∧ m.qp = [.faaPhase] ∨
    m.pc = .pollConsensus ∧ m.qp = [.faaConsensus] := by
  have hs := h.stage
  unfold Stage at hs
  cases hpc : m.pc <;> simp only [hpc] at hs <;> tauto

theorem Inv.of_write {qp : List Wqe} (hq : m.qp = .writeReport :: qp) :
    m.hist.phases + 1 = m.hist.reports.length ∧ (m.pc = .postPhase ∧ qp = [] ∨
      m.pc = .pollPhase ∧ qp = [.faaPhase]) := by
  have hs := h.stage
  unfold Stage at hs
  rcases h.qp_cases with hc | ⟨hpc, hc⟩ | ⟨hpc, hc⟩ | ⟨hpc, hc⟩ | ⟨hpc, hc⟩
  · simp [hc] at hq
  · simp only [hpc] at hs
    simp_all
  · simp only [hpc, hc] at hs
    simp_all
  · simp [hc] at hq
  · simp [hc] at hq

theorem Inv.copyEntry (hn : m.copyEntry j = some m') : m'.Inv := by
  unfold Machine.copyEntry at hn
  simp only [ite_none_right_eq_some, some.injEq] at hn
  obtain ⟨hq, rfl⟩ := hn
  obtain ⟨qp, hq⟩ := List.head?_eq_some_iff.mp hq
  have hw := h.of_write hq
  have hlen : m.hist.phases ≠ m.hist.reports.length := by omega
  have hs := h.stage
  unfold Stage at hs
  have hst : Stage { m with
      unitReport := m.unitReport.setEntry j (m.mesg.counters j) (m.mesg.cCounters j) } := by
    rcases hw.2 with ⟨hpc, rfl⟩ | ⟨hpc, rfl⟩
    · simp only [hpc] at hs
      simp [Stage, hpc, hq, hs]
    · simp only [hpc, hq] at hs
      simpa [Stage, hpc, hq] using hs
  exact { h with stage := hst, unitReport := fun hp => absurd hp hlen }

theorem Inv.complete (hn : m.complete = some m') : m'.Inv ∧ m'.strategies = m.strategies ∧
      (m.qp.head? = some .writeReport ∧ m'.hist = m.hist ∨
        m.qp.head? = some .faaPhase ∧ m.hist.phases = m.hist.received ∧
          m'.hist = { m.hist with phases := m.hist.phases + 1 } ∨
        m.qp.head? = some .faaConsensus ∧ m.hist.acked + 1 = m.hist.received ∧
          m'.hist = { m.hist with acked := m.hist.acked + 1 }) := by
  have hs := h.stage
  unfold Stage at hs
  unfold Machine.complete at hn
  rcases h.qp_cases with hc | ⟨hpc, hc⟩ | ⟨hpc, hc⟩ | ⟨hpc, hc⟩ | ⟨hpc, hc⟩ <;>
    simp only [hc, reduceCtorEq, some.injEq] at hn <;> subst hn <;>
    simp only [hc, hpc] at hs
  · refine ⟨{ h with stage := ?_, unitReport := fun _ _ => rfl }, rfl, .inl ⟨by rw [hc]; rfl, rfl⟩⟩
    simp [Stage, hpc, hs]
  · refine ⟨{ h with stage := ?_, unitReport := fun _ _ => rfl }, rfl, .inl ⟨by rw [hc]; rfl, rfl⟩⟩
    simpa [Stage, hpc] using hs
  · have hu : m.unitReport = m.mesg := by simp_all
    refine ⟨{ h with stage := ?_, unitPhase := ?_, unitReport := fun _ _ => hu }, rfl, ?_⟩
    · simp_all [Stage]
    · simp [h.unitPhase, Wrap.ofNat_succ]
    · simp [hc] at hs ⊢
      omega
  · refine ⟨{ h with stage := ?_ }, rfl, ?_⟩
    · simp_all [Stage]
    · simp [hc] at hs ⊢
      omega

theorem Inv.receive {strategies : Resp} (hw : m.hist.phases = m.hist.received + 1)
    (hp : strategies.phase = UInt64.ofNat (m.hist.received + 2)) : (m.receive strategies).Inv := by
  have hs := h.stage
  have hc := h.counts
  unfold Stage at hs
  have hst : (m.receive strategies).Stage := by
    unfold Stage Machine.receive
    cases hpc : m.pc with
    | pollPhase =>
      simp only [hpc] at hs ⊢
      rcases hs with ⟨hq | hq, hs⟩
      · omega
      · refine ⟨.inr ⟨hq.1, hq.2.1, ?_⟩, hs⟩
        omega
    | waitStrategy =>
      simp only [hpc] at hs ⊢
      refine ⟨hs.1, hs.2.1, ?_, hs.2.2.2⟩
      omega
    | _ =>
      simp only [hpc] at hs
      omega
  exact { h with
    stage := hst
    strategiesPhase := hp
    credit := fun hi => by
      have hi : m.hist.installed = m.hist.received + 1 := hi
      omega }

theorem Inv.readEntry (j : ℕ) : (m.readEntry j).Inv := { h with }

end

theorem clientStep_frame (hn : m.clientStep found = some m') :
    m'.hist.phases = m.hist.phases ∧ m'.hist.received = m.hist.received ∧
      m'.hist.acked = m.hist.acked ∧ m'.hist.reads = m.hist.reads ∧
      m'.strategies = m.strategies ∧ m.hist.reports <+: m'.hist.reports := by
  unfold clientStep at hn
  cases hpc : m.pc <;> simp only [hpc, ite_none_right_eq_some, some.injEq] at hn
  all_goals first | subst hn | obtain ⟨-, rfl⟩ := hn
  all_goals simp

theorem complete_frame (hn : m.complete = some m') :
    m'.hist.reports = m.hist.reports ∧ m.hist.acked ≤ m'.hist.acked := by
  unfold complete at hn
  split at hn <;> cases hn <;> simp

theorem copyEntry_frame (hn : m.copyEntry j = some m') :
    m'.hist = m.hist ∧ m'.strategies = m.strategies := by
  unfold copyEntry at hn
  simp only [ite_none_right_eq_some, some.injEq] at hn
  obtain ⟨-, rfl⟩ := hn
  exact ⟨rfl, rfl⟩

end
end Machine
end Fusa.Agent

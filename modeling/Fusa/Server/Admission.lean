import Fusa.Agent.Switch
import Fusa.Server.Request

/-! The rpc threads of `rpc_func_impl` beside the agents: when is a request for a credit that
the phase has switched executed? -/
namespace Fusa.Server.Admission
open Transition Fusa.Agent Function Option

inductive RpcPc
  | idle
  | loadOld (req : RpcOp) (newCredit : UInt16)
  | loadConsensus (req : RpcOp) (newCredit oldCredit : UInt16)
  | handle (req : RpcOp) (reject : Bool)

structure State where
  agents : Agent.State
  threads : ℕ → RpcPc
  mem : ℕ → UInt64
  resps : ℕ → RpcOp

/-- A step of the agents, a request that thread `k` finds, or the thread's next access. -/
inductive Step
  | agent (a : Agent.Step)
  | request (k : ℕ) (req : RpcOp)
  | rpc (k : ℕ)

namespace State

def setThread (s : State) (k : ℕ) (pc : RpcPc) : State :=
  { s with threads := Function.update s.threads k pc }

/-- The consensus is loaded only for a credit that seems to have switched from 0 to 1. -/
def rpcStep (cfg : ServerConfig) (s : State) (k : ℕ) : Option State :=
  match s.threads k with
  | .idle => none
  | .loadOld req newCredit =>
    let oldCredit := s.agents.strategies.old (counterIdx req.remoteAddr)
    some (s.setThread k (if newCredit ^^^ oldCredit = 1 ∧ newCredit = 1 then
      .loadConsensus req newCredit oldCredit else .handle req (newCredit == 0)))
  | .loadConsensus req newCredit oldCredit =>
    some (s.setThread k (.handle req
      (rejectResp cfg.nrMachine newCredit oldCredit s.agents.consensus)))
  | .handle req reject =>
    let handled := Server.handle reject s.mem req (s.resps k)
    some { s.setThread k .idle with
      mem := handled.mem, resps := Function.update s.resps k handled.resp }

def next (Q : TaskQueue) (cfg : ServerConfig) (s : State) : Step → Option State
  | .agent a => ((Agent.agents Q cfg).next s.agents a).map fun t => { s with agents := t }
  | .request k req =>
    match s.threads k with
    | .idle => some (s.setThread k (.loadOld req
        (s.agents.strategies.credit (counterIdx req.remoteAddr))))
    | _ => none
  | .rpc k => s.rpcStep cfg k

end State

def switching (Q : TaskQueue) (cfg : ServerConfig) : System State Step where
  start s := s.agents = .start ∧ ∀ k, s.threads k = .idle
  next := State.next Q cfg

variable (cfg : ServerConfig)

/-- The thread has a CAS on slot `c` that it may still execute. -/
def RpcPc.MayExecute (c : ℕ) : RpcPc → Prop
  | .idle => False
  | .loadOld req newCredit =>
    (req.opcode = casOpCode ∧ counterIdx req.remoteAddr = c) ∧ newCredit ≠ 0
  | .loadConsensus req _ _ => req.opcode = casOpCode ∧ counterIdx req.remoteAddr = c
  | .handle req reject => (req.opcode = casOpCode ∧ counterIdx req.remoteAddr = c) ∧ reject = false

/-- The consensus does not wrap, no strategy is made while a CAS that may be executed has a credit
that has become 0, and for a switched credit the consensus is loaded only after it has changed. -/
def Timely (s : State) : Step → Prop
  | .agent a => NoWrap cfg s.agents a ∧ (s.agents.Makes cfg a → ∀ k c,
      (s.threads k).MayExecute c → s.agents.strategies.credit c ≠ 0)
  | .request _ _ => True
  | .rpc k => match s.threads k with
    | .loadConsensus req _ _ => req.opcode = casOpCode →
        s.agents.Switched (counterIdx req.remoteAddr) → s.agents.consensus ≠ s.agents.startConsensus
    | _ => True

/-- What is known of a credit that was 0 before the phase. -/
def RpcPc.Current (s : Agent.State) (c : ℕ) : RpcPc → Prop
  | .idle => True
  | .loadOld _ newCredit => newCredit = s.strategies.credit c
  | .loadConsensus _ newCredit oldCredit =>
    newCredit = 1 ∧ newCredit ^^^ oldCredit = 1 ∧ s.strategies.credit c = 1
  | .handle _ _ => s.strategies.credit c ≠ 0 ∧
      (s.Switched c → ∀ i < cfg.nrMachine, s.made ≤ (s.machines i).hist.acked)

def ThreadInv (s : Agent.State) (pc : RpcPc) : Prop :=
  ∀ c, pc.MayExecute c → s.prevCredit c = 0 → pc.Current cfg s c

structure Inv (cfg : ServerConfig) (s : State) : Prop where
  agents : s.agents.Inv cfg
  switch : s.agents.SwitchInv
  threads : ∀ k, ThreadInv cfg s.agents (s.threads k)

variable {Q : TaskQueue} {cfg : ServerConfig} {s t : State} {k : ℕ}
  {u : Agent.State} {pc : RpcPc} {req : RpcOp} {newCredit : UInt16}

theorem RpcPc.Current.credit_ne {c : ℕ} (h : pc.Current cfg u c) (hm : pc.MayExecute c) :
    u.strategies.credit c ≠ 0 := by
  cases pc with
  | idle => exact hm.elim
  | loadOld req newCredit => exact h ▸ hm.2
  | loadConsensus => exact ne_of_eq_of_ne h.2.2 (by decide)
  | handle => exact h.1

theorem ThreadInv.agentStep {a : Agent.Step} {v : Agent.State} (hu : u.SwitchInv)
    (h : ThreadInv cfg u pc) (hn : (agents Q cfg).next u a = some v) (hm : ¬ u.Makes cfg a) :
    ThreadInv cfg v pc := by
  intro c hme h0
  obtain ⟨hp, hmade, hst⟩ := Agent.State.next_stores hn hm
  rw [hp] at h0
  have hcur := h c hme h0
  have hne := hcur.credit_ne hme
  -- a credit that this step stores was the one before the phase
  have hcredit : v.strategies.credit c = u.strategies.credit c := by
    cases hst with
    | save d ds _ _ he =>
      rw [he]
      unfold Strategies.saveOld
      split <;> rfl
    | store d ds hs _ he =>
      have hc : c ≠ d.idx := by
        rintro rfl
        exact hne ((((hu.store d ds hs).1.2.2 d List.mem_cons_self).2).trans h0)
      rw [he]
      exact update_of_ne hc _ _
    | keep he _ _ => rw [he]
  cases pc with
  | idle => trivial
  | loadOld | loadConsensus => simpa only [RpcPc.Current, hcredit] using hcur
  | handle req reject =>
    refine ⟨hcredit ▸ hne, fun hs i hi => ?_⟩
    rw [hmade]
    unfold Agent.State.Switched at hs
    rw [hp, hcredit] at hs
    exact (hcur.2 hs i hi).trans (Agent.State.next_acked hn i)

theorem xor_of_switched (hu : u.SwitchInv) {c : ℕ} (hs : u.Switched c) :
    (1 : UInt16) ^^^ u.strategies.old c = 1 ∧ 0 < u.made := by
  have hne : u.strategies.credit c ≠ u.prevCredit c := by
    rw [hs.1, hs.2]
    decide
  obtain ⟨ho, h0⟩ := hu.saved c hne
  rw [ho, hs.1]
  exact ⟨by decide, h0⟩

theorem Inv.setThread (h : Inv cfg s) (hpc : ThreadInv cfg s.agents pc) :
    Inv cfg (s.setThread k pc) := by
  refine ⟨h.agents, h.switch, ?_⟩
  exact (forall_update_iff _ fun _ => ThreadInv cfg s.agents).mpr ⟨hpc, fun l _ => h.threads l⟩

theorem Inv.loadOld (h : Inv cfg s) (ht : ThreadInv cfg s.agents (.loadOld req newCredit)) :
    ThreadInv cfg s.agents
      (if newCredit ^^^ s.agents.strategies.old (counterIdx req.remoteAddr) = 1 ∧ newCredit = 1 then
        .loadConsensus req newCredit (s.agents.strategies.old (counterIdx req.remoteAddr))
      else .handle req (newCredit == 0)) := by
  split
  · rename_i hc
    intro c hm h0
    have hcur := ht c ⟨hm, hc.2 ▸ by decide⟩ h0
    exact ⟨hc.2, hc.1, hcur.symm.trans hc.2⟩
  · rename_i hc
    intro c hm h0
    have hne : newCredit ≠ 0 := by simpa using hm.2
    have hcur := ht c ⟨hm.1, hne⟩ h0
    refine ⟨hcur ▸ hne, fun hs => ?_⟩
    have h1 : newCredit = 1 := hcur.trans hs.2
    rw [h1, hm.1.2] at hc
    exact absurd ⟨(xor_of_switched h.switch hs).1, rfl⟩ hc

theorem Inv.loadConsensus (h : Inv cfg s) {oldCredit : UInt16}
    (ht : ThreadInv cfg s.agents (.loadConsensus req newCredit oldCredit))
    (hc : req.opcode = casOpCode → s.agents.Switched (counterIdx req.remoteAddr) →
      s.agents.consensus ≠ s.agents.startConsensus) : ThreadInv cfg s.agents (.handle req
      (rejectResp cfg.nrMachine newCredit oldCredit s.agents.consensus)) := by
  rintro c ⟨⟨hop, rfl⟩, hr⟩ h0
  obtain ⟨h1, hx, hl⟩ := ht _ ⟨hop, rfl⟩ h0
  have hturn : s.agents.consensus.toNat % cfg.nrMachine = 0 := by
    rw [h1] at hx hr
    simpa [rejectResp, hx] using hr
  refine ⟨ne_of_eq_of_ne hl (by decide), fun hs i hi => ?_⟩
  exact h.agents.made_le_acked (xor_of_switched h.switch hs).2 (hc hop hs) hturn hi

theorem Inv.rpcStep (h : Inv cfg s) (hc : Timely cfg s (.rpc k))
    (hn : s.rpcStep cfg k = some t) : Inv cfg t := by
  have ht := h.threads k
  unfold State.rpcStep at hn
  unfold Timely at hc
  cases hpc : s.threads k with
  | idle => simp [hpc] at hn
  | loadOld req newCredit =>
    simp only [hpc, some.injEq] at hn
    rw [hpc] at ht
    rw [← hn]
    exact h.setThread (h.loadOld ht)
  | loadConsensus req newCredit oldCredit =>
    simp only [hpc, some.injEq] at hn hc
    rw [hpc] at ht
    rw [← hn]
    exact h.setThread (h.loadConsensus ht hc)
  | handle req reject =>
    simp only [hpc, some.injEq] at hn
    rw [← hn]
    have hi : Inv cfg (s.setThread k .idle) := h.setThread fun _ => False.elim
    exact ⟨hi.agents, hi.switch, hi.threads⟩

theorem Inv.next {a : Step} (hag : cfg.agentEnabled = true) (hpa : cfg.paEnabled = false)
    (h1 : cfg.threshold ≠ rnicThreshold) (h0 : cfg.threshold ≠ 0) (h : Inv cfg s)
    (hc : Timely cfg s a) (hn : (switching Q cfg).next s a = some t) : Inv cfg t := by
  cases a with
  | agent a =>
    obtain ⟨u, hu, rfl⟩ := map_eq_some_iff.mp hn
    refine ⟨h.agents.next hc.1 hu, h.switch.next hag hpa h1 h0 hu, ?_⟩
    intro l
    by_cases hm : s.agents.Makes cfg a
    · intro c hme h0
      rw [Agent.State.next_of_makes hu hm] at h0
      exact absurd h0 (hc.2 hm l c hme)
    · exact (h.threads l).agentStep h.switch hu hm
  | request k req =>
    simp only [switching, State.next] at hn
    cases hpc : s.threads k with
    | idle =>
      simp only [hpc, some.injEq] at hn
      rw [← hn]
      refine h.setThread ?_
      rintro c ⟨⟨-, rfl⟩, -⟩ _
      rfl
    | _ => simp [hpc] at hn
  | rpc k => exact h.rpcStep hc hn

def boot : State := ⟨.start, fun _ => .idle, fun _ => 0, fun _ => .zero⟩

end Fusa.Server.Admission

import Fusa.Lib.Transition
import Fusa.Common

/-! The routing decisions of `mlx5_post_send` against one strategy install and `wait_sync`,
one access to the shared region a step. -/
namespace Fusa.Agent.WaitSync
open Transition List Function Option Nat

/-- `sizeof(strategies) / sizeof(uint64_t)`: a stored word holds four credits. -/
def stragWords : ℕ := 2048

/-- The next access of a call for counter `c`; `old` says that its credit was the previous one's. -/
inductive CallPc
  | idle
  | casRunning (c : ℕ)
  | faaEpoch (c : ℕ)
  | loadCredit (c : ℕ)
  | countRnic (c : ℕ) (old : Bool)
  | postRnic (old : Bool)
  | countCpu (c : ℕ) (old : Bool)
  | postRpc (old : Bool)
  | clearRunning

/-- What the shared region holds for one recorder index, and the call on its queue pair. -/
structure Recorder where
  qpn : ℕ
  counters : ℕ → UInt64
  cCounters : ℕ → UInt64
  running : UInt64
  epoch : UInt64
  call : CallPc

def Recorder.zero : Recorder := ⟨0, fun _ => 0, fun _ => 0, 0, 0, .idle⟩

/-- The agent's next access: storing word `k`, scanning the recorders, or spinning on the queue. -/
inductive AgentPc
  | install (k : ℕ)
  | readQpn (i : ℕ)
  | readTuple (i : ℕ)
  | readEpoch (i qpn : ℕ)
  | spinEpoch
  | spinRunning
  | returned

structure State where
  credit : ℕ → UInt16
  newCredit : ℕ → UInt16
  records : ℕ → Recorder
  mapped : ℕ → Bool
  agent : AgentPc
  syncQueue : List (ℕ × ℕ × UInt64)

inductive Action
  | openShm (p : ℕ)
  | createQp (p i qpn : ℕ)
  | post (i remoteAddr : ℕ)
  | call (i : ℕ)
  | agent

def AgentPc.stored (c : ℕ) : AgentPc → Bool
  | .install k => decide (c / 4 < k)
  | _ => true

/-- One access of the call; only the RPC path resets `running`. -/
def Recorder.step (credit : ℕ → UInt16) (agent : AgentPc) (r : Recorder) : Option Recorder :=
  match r.call with
  | .idle => none
  | .casRunning c =>
    some { r with running := if r.running = 0 then 1 else r.running, call := .faaEpoch c }
  | .faaEpoch c => some { r with epoch := r.epoch + 1, call := .loadCredit c }
  | .loadCredit c =>
    let old := !agent.stored c
    some { r with call := if credit c = 0 then .countRnic c old else .countCpu c old }
  | .countRnic c old =>
    some { r with
      counters := update r.counters c (r.counters c + 1), call := .postRnic old }
  | .postRnic _ => some { r with call := .idle }
  | .countCpu c old =>
    some { r with
      cCounters := update r.cCounters c (r.cCounters c + 1), call := .postRpc old }
  | .postRpc _ => some { r with call := .clearRunning }
  | .clearRunning =>
    some { r with running := if r.running = 1 then 0 else r.running, call := .idle }

def AgentPc.after (i : ℕ) : AgentPc :=
  if i + 1 < maxRecorderNum then .readQpn (i + 1) else .spinEpoch

/-- One access of the install loop or of `wait_sync`. -/
def State.agentStep (s : State) : Option State :=
  match s.agent with
  | .install k =>
    some { s with
      credit := fun c => if c / 4 = k then s.newCredit c else s.credit c
      agent := if k + 1 < stragWords then .install (k + 1) else .readQpn 0 }
  | .readQpn i =>
    some { s with agent := if (s.records i).qpn ≠ 0 then .readTuple i else .after i }
  | .readTuple i => some { s with agent := .readEpoch i (s.records i).qpn }
  | .readEpoch i qpn =>
    some { s with syncQueue := s.syncQueue ++ [(i, qpn, (s.records i).epoch)], agent := .after i }
  | .spinEpoch =>
    match s.syncQueue with
    | [] => some { s with agent := .returned }
    | (idx, _, ep) :: rest =>
      if ep ≠ (s.records idx).epoch then some { s with syncQueue := rest }
      else some { s with agent := .spinRunning }
  | .spinRunning =>
    match s.syncQueue with
    | [] => none
    | (idx, _, _) :: rest =>
      if (s.records idx).running = 0 then some { s with syncQueue := rest, agent := .spinEpoch }
      else some { s with agent := .spinEpoch }
  | .returned => none

def State.setRecord (s : State) (i : ℕ) (r : Recorder) : State :=
  { s with records := update s.records i r }

/-- The first queue pair of a process maps the region and clears it; the calls in flight go on. -/
def State.openShm (s : State) (p : ℕ) : State :=
  { s with
    mapped := update s.mapped p true
    credit := fun _ => 0
    records := fun i => { Recorder.zero with call := (s.records i).call } }

/-- A queue pair takes a recorder that no call uses before it posts. -/
def next (s : State) : Action → Option State
  | .openShm p => if s.mapped p then none else some (s.openShm p)
  | .createQp p i qpn =>
    match (s.records i).call with
    | .idle =>
      if s.mapped p ∧ i < maxRecorderNum ∧ (s.records i).qpn = 0 ∧ qpn ≠ 0 then
        some (s.setRecord i { s.records i with qpn })
      else none
    | _ => none
  | .post i remoteAddr =>
    match (s.records i).call with
    | .idle =>
      if i < maxRecorderNum ∧ (s.records i).qpn ≠ 0 then
        some (s.setRecord i { s.records i with call := .casRunning (counterIdx remoteAddr) })
      else none
    | _ => none
  | .call i => ((s.records i).step s.credit s.agent).map (s.setRecord i)
  | .agent => s.agentStep

def system : System State Action where
  start s := (∀ i, (s.records i).call = .idle) ∧ s.agent = .install 0 ∧ s.syncQueue = []
  next := next

def CallPc.oldPending : CallPc → Bool
  | .countRnic _ old | .postRnic old | .countCpu _ old | .postRpc old => old
  | _ => false

/-- The call has read a credit of the previous strategy, or can still read one. -/
def CallPc.mayBeOld (agent : AgentPc) : CallPc → Bool
  | .casRunning c | .faaEpoch c | .loadCredit c => !agent.stored c
  | pc => pc.oldPending

/-- A process creates its first queue pair only when no call in flight may have an old credit. -/
def Orderly (s : State) : Action → Prop
  | .openShm _ => ∀ i, (s.records i).call.mayBeOld s.agent = false
  | _ => True

def CallPc.marked : CallPc → Bool
  | .idle | .casRunning _ => false
  | _ => true

def AgentPc.past (i : ℕ) : AgentPc → Prop
  | .install _ => False
  | .readQpn j | .readTuple j | .readEpoch j _ => i < j
  | _ => True

/-- The recorder stands for its queue pair, and `running` is up for the call on it. -/
def Recorder.Held (i : ℕ) (r : Recorder) : Prop :=
  i < maxRecorderNum ∧ r.qpn ≠ 0 ∧ (r.call.marked = true → r.running ≠ 0)

/-- A call that may be old holds its recorder, and an old one keeps the epoch the agent saw. -/
structure InvAt (agent : AgentPc) (syncQueue : List (ℕ × ℕ × UInt64)) (i : ℕ) (r : Recorder) :
    Prop where
  held : r.call.mayBeOld agent = true → r.Held i
  queued : r.call.oldPending = true → agent.past i → ∃ qpn, (i, qpn, r.epoch) ∈ syncQueue

structure Inv (s : State) : Prop where
  record : ∀ i, InvAt s.agent s.syncQueue i (s.records i)
  empty : s.agent = .returned → s.syncQueue = []

theorem CallPc.of_oldPending {pc : CallPc} {agent : AgentPc} (h : pc.oldPending = true) :
    pc.mayBeOld agent = true ∧ pc.marked = true := by
  cases pc <;> simp_all [oldPending, mayBeOld, marked]

variable {agent : AgentPc} {syncQueue : List (ℕ × ℕ × UInt64)} {i : ℕ} {r : Recorder} {s t : State}

theorem InvAt.of_not_mayBeOld (h : r.call.mayBeOld agent = false) : InvAt agent syncQueue i r := by
  refine ⟨fun hm => ?_, fun ho => ?_⟩
  · simp [hm] at h
  · simp [(CallPc.of_oldPending ho).1] at h

theorem InvAt.up (h : InvAt agent syncQueue i r) (ho : r.call.oldPending = true) :
    i < maxRecorderNum ∧ r.qpn ≠ 0 ∧ r.running ≠ 0 := by
  obtain ⟨hm, hmark⟩ := CallPc.of_oldPending ho
  obtain ⟨hi, hq, hrun⟩ := h.held hm
  exact ⟨hi, hq, hrun hmark⟩

theorem InvAt.of_idle (h : r.call = .idle) : InvAt agent syncQueue i r := .of_not_mayBeOld (h ▸ rfl)

theorem Inv.start (h : system.start s) : Inv s := ⟨fun i => .of_idle (h.1 i), fun _ => h.2.2⟩

theorem Inv.setRecord (h : Inv s) (hr : InvAt s.agent s.syncQueue i r) : Inv (s.setRecord i r) where
  record := by
    refine (forall_update_iff s.records fun j r => InvAt s.agent s.syncQueue j r).mpr ?_
    exact ⟨hr, fun j _ => h.record j⟩
  empty := h.empty

theorem AgentPc.not_past_of_stored {c : ℕ} (h : agent.stored c = false) : ¬ agent.past i := by
  cases agent <;> simp_all [stored, past]

theorem InvAt.step {credit : ℕ → UInt16} {r' : Recorder} (h : InvAt agent syncQueue i r)
    (hn : r.step credit agent = some r') : InvAt agent syncQueue i r' := by
  obtain ⟨hheld, hq⟩ := h
  unfold Recorder.step at hn
  generalize hc : r.call = pc at hn hheld hq
  cases pc with
  | idle => cases hn
  | casRunning c =>
    cases hn
    refine ⟨fun hm => ?_, fun ho => by cases ho⟩
    obtain ⟨hi, hqpn, -⟩ := hheld hm
    refine ⟨hi, hqpn, fun _ => ?_⟩
    by_cases h0 : r.running = 0 <;> simp [h0]
  | faaEpoch c =>
    cases hn
    refine ⟨fun hm => ?_, fun ho => by cases ho⟩
    obtain ⟨hi, hqpn, hrun⟩ := hheld hm
    exact ⟨hi, hqpn, fun _ => hrun (hc ▸ rfl)⟩
  | loadCredit c =>
    dsimp only at hn
    split at hn <;> cases hn
    all_goals
      refine ⟨fun hm => ?_, fun ho hp => ?_⟩
      · obtain ⟨hi, hqpn, hrun⟩ := hheld hm
        exact ⟨hi, hqpn, fun _ => hrun (hc ▸ rfl)⟩
      · exact absurd hp (AgentPc.not_past_of_stored (by simpa [CallPc.oldPending] using ho))
  | countRnic | countCpu =>
    cases hn
    refine ⟨fun hm => ?_, hq⟩
    obtain ⟨hi, hqpn, hrun⟩ := hheld hm
    exact ⟨hi, hqpn, fun _ => hrun (hc ▸ rfl)⟩
  | postRnic | postRpc | clearRunning =>
    cases hn
    exact .of_not_mayBeOld rfl

theorem AgentPc.past_after {j : ℕ} (h : (after j).past i) (hi : i < maxRecorderNum) : i ≤ j := by
  unfold after at h
  split at h
  · exact Nat.lt_succ_iff.mp h
  · omega

theorem AgentPc.after_ne_returned (j : ℕ) : after j ≠ .returned := by
  unfold after
  split <;> simp

section
/-- The agent leaves its queue as it is, takes a recorder in, or lets its first one go. -/
inductive AgentStep (s : State) : State → Prop
  | keep {credit : ℕ → UInt16} {agent : AgentPc} (hr : agent = .returned → s.syncQueue = [])
      (hp : ∀ i < maxRecorderNum, (s.records i).qpn ≠ 0 → agent.past i → s.agent.past i) :
      AgentStep s { s with credit, agent }
  | push {j qpn : ℕ} {agent : AgentPc} (hr : agent ≠ .returned)
      (hp : ∀ i < maxRecorderNum, agent.past i → i = j ∨ s.agent.past i) :
      AgentStep s
        { s with syncQueue := s.syncQueue ++ [(j, qpn, (s.records j).epoch)], agent }
  | pop {e : ℕ × ℕ × UInt64} {rest : List (ℕ × ℕ × UInt64)} {agent : AgentPc}
      (hr : agent ≠ .returned) (hq : s.syncQueue = e :: rest) (hp : ∀ i, s.agent.past i)
      (hgo : e.2.2 ≠ (s.records e.1).epoch ∨ (s.records e.1).running = 0) :
      AgentStep s { s with syncQueue := rest, agent }

section
variable (hn : s.agentStep = some t)
include hn

theorem agentStep_cases : AgentStep s t := by
  unfold State.agentStep at hn
  generalize ha : s.agent = pc at hn
  cases pc with
  | install k =>
    cases hn
    split
    · exact .keep (by simp) fun i _ _ hp => hp.elim
    · exact .keep (by simp) fun i _ _ hp => absurd hp (not_lt_zero i)
  | readQpn j =>
    cases hn
    split
    · exact .keep (by simp) fun i _ _ hp => ha ▸ hp
    · rename_i hj
      refine .keep (fun he => absurd he (AgentPc.after_ne_returned j)) fun i hi hq hp => ?_
      rw [ha]
      exact lt_of_le_of_ne (AgentPc.past_after hp hi) fun he => hj (he ▸ hq)
  | readTuple j =>
    cases hn
    exact .keep (by simp) fun i _ _ hp => ha ▸ hp
  | readEpoch j qpn =>
    cases hn
    refine .push (AgentPc.after_ne_returned j) fun i hi hp => ?_
    rw [ha]
    exact (AgentPc.past_after hp hi).eq_or_lt
  | spinEpoch | spinRunning =>
    have hpast : ∀ i, s.agent.past i := fun i => by rw [ha]; trivial
    dsimp only at hn
    split at hn
    · rename_i hq
      cases hn <;> exact .keep (fun _ => hq) fun i _ _ _ => hpast i
    · rename_i hq
      split at hn <;> rename_i hg <;> cases hn
      · exact .pop (by grind) hq hpast (by first | exact .inl hg | exact .inr hg)
      · exact .keep (by simp) fun i _ _ _ => hpast i
  | returned => cases hn

theorem agentStep_frame : t.records = s.records ∧ t.newCredit = s.newCredit ∧
      (t.agent = .returned → t.syncQueue = []) := by
  cases agentStep_cases hn with
  | keep hr => exact ⟨rfl, rfl, hr⟩
  | push hr | pop hr => exact ⟨rfl, rfl, fun he => absurd he hr⟩

theorem stored_of_agentStep {c : ℕ} (hc : s.agent.stored c = true) : t.agent.stored c = true := by
  cases ha : s.agent <;> simp only [State.agentStep, ha] at hn <;>
    grind [AgentPc.stored, AgentPc.after]

theorem mayBeOld_of_agentStep {pc : CallPc} (h : pc.mayBeOld t.agent = true) :
    pc.mayBeOld s.agent = true := by
  cases pc <;> grind [CallPc.mayBeOld, stored_of_agentStep]

theorem agentStep_queue {e : ℕ × ℕ × UInt64} (he : e ∈ t.syncQueue) :
    e ∈ s.syncQueue ∨ e.2.2 = (s.records e.1).epoch := by
  cases agentStep_cases hn with
  | keep => exact .inl he
  | push =>
    obtain he | he := mem_append.mp he
    · exact .inl he
    · rw [mem_singleton.mp he]
      exact .inr rfl
  | pop _ hq => exact .inl (hq ▸ mem_cons_of_mem _ he)

end

theorem queued_agentStep {P : ℕ → Prop}
    (hP : ∀ i, P i → i < maxRecorderNum ∧ (s.records i).qpn ≠ 0 ∧ (s.records i).running ≠ 0)
    (hqueued : ∀ i, P i → s.agent.past i → ∃ qpn, (i, qpn, (s.records i).epoch) ∈ s.syncQueue)
    (hn : s.agentStep = some t) (hi : P i) (hp : t.agent.past i) :
    ∃ qpn, (i, qpn, (s.records i).epoch) ∈ t.syncQueue := by
  obtain ⟨hlt, hqpn, hrun⟩ := hP i hi
  cases agentStep_cases hn with
  | keep _ hpast => exact hqueued i hi (hpast i hlt hqpn hp)
  | @push _ qpn _ _ hpast =>
    obtain rfl | hpast := hpast i hlt hp
    · exact ⟨qpn, by simp⟩
    · obtain ⟨q, hm⟩ := hqueued i hi hpast
      exact ⟨q, mem_append_left _ hm⟩
  | pop _ hq hpast hgo =>
    obtain ⟨q, hm⟩ := hqueued i hi (hpast i)
    rw [hq, mem_cons] at hm
    obtain rfl | hm := hm
    · -- this recorder is neither stale nor at rest
      rcases hgo with hne | hzero
      · exact absurd rfl hne
      · exact absurd hzero hrun
    · exact ⟨q, hm⟩

end

namespace Inv
variable (h : Inv s)
include h

theorem agentStep (hn : s.agentStep = some t) : Inv t := by
  obtain ⟨hr, -, he⟩ := agentStep_frame hn
  refine ⟨fun i => hr ▸ ⟨fun hm => (h.record i).held (mayBeOld_of_agentStep hn hm), ?_⟩, he⟩
  exact queued_agentStep (fun i => (h.record i).up) (fun i => (h.record i).queued) hn

theorem step {a : Action} (hc : Orderly s a) (hn : next s a = some t) : Inv t := by
  cases a with
  | openShm p =>
    obtain ⟨-, ⟨⟩⟩ := ite_none_left_eq_some.mp hn
    exact ⟨fun i => .of_not_mayBeOld (hc i), h.empty⟩
  | createQp p i qpn =>
    simp only [next] at hn
    split at hn
    · rename_i hidle
      obtain ⟨-, ⟨⟩⟩ := ite_none_right_eq_some.mp hn
      exact h.setRecord (.of_idle hidle)
    · cases hn
  | post i remoteAddr =>
    simp only [next] at hn
    split at hn
    · obtain ⟨hg, ⟨⟩⟩ := ite_none_right_eq_some.mp hn
      exact h.setRecord ⟨fun _ => ⟨hg.1, hg.2, fun hm => by cases hm⟩, fun ho => by cases ho⟩
    · cases hn
  | call i =>
    obtain ⟨r, hr, rfl⟩ := map_eq_some_iff.mp hn
    exact h.setRecord ((h.record i).step hr)
  | agent => exact h.agentStep hn

end Inv

def AgentRun : State → State → Prop := Relation.ReflTransGen fun s t => s.agentStep = some t

theorem AgentRun.frame (h : AgentRun s t) : t.records = s.records ∧ t.newCredit = s.newCredit := by
  induction h with
  | refl => exact ⟨rfl, rfl⟩
  | tail _ hn ih =>
    obtain ⟨hr, hc, -⟩ := agentStep_frame hn
    exact ⟨hr.trans ih.1, hc.trans ih.2⟩

theorem AgentRun.queue (h : AgentRun s t) (hs : s.syncQueue = []) :
    ∀ e ∈ t.syncQueue, e.2.2 = (s.records e.1).epoch := by
  induction h with
  | refl => simp [hs]
  | tail hrun hn ih =>
    intro e he
    obtain he | he := agentStep_queue hn he
    · exact ih e he
    · rw [he, (frame hrun).1]

theorem AgentRun.runWith {C : State → Action → Prop} (hC : ∀ s, C s .agent) (h : AgentRun s t)
    (hs : system.RunWith C s) : system.RunWith C t := by
  induction h with
  | refl => exact hs
  | tail _ hn ih => exact ih.step .agent (hC _) hn

def AgentPc.left : AgentPc → ℕ
  | .install k => stragWords - k + 4 * maxRecorderNum
  | .readQpn i => 3 * (maxRecorderNum - i) + 4
  | .readTuple i => 3 * (maxRecorderNum - i) + 3
  | .readEpoch i _ => 3 * (maxRecorderNum - i) + 2
  | .spinEpoch => 1
  | _ => 0

theorem AgentPc.left_after (i : ℕ) :
    0 < (after i).left ∧ (after i).left < 3 * (maxRecorderNum - i) + 2 := by
  unfold after
  split <;> simp only [left] <;> omega

theorem agentRun_scanned (ha : s.agent = .install 0) :
    ∃ t, AgentRun s t ∧ t.agent = .spinEpoch := by
  have hrun : ∃ t, AgentRun s t ∧ 0 < t.agent.left ∧ t.agent = .spinEpoch := by
    refine Machine.exists_reaches (fun s => s.agent.left) (fun s hs hspin => ?_)
      (by rw [ha]; decide)
    unfold State.agentStep
    cases ha : s.agent with
    | install k =>
      refine ⟨_, rfl, ?_⟩
      split <;> simp only [AgentPc.left, maxRecorderNum] <;> omega
    | readQpn i =>
      obtain ⟨hpos, hlt⟩ := AgentPc.left_after i
      refine ⟨_, rfl, ?_⟩
      split
      · exact ⟨succ_pos _, lt_succ_self _⟩
      · exact ⟨hpos, Nat.lt_add_right 2 hlt⟩
    | readTuple i => exact ⟨_, rfl, succ_pos _, lt_succ_self _⟩
    | readEpoch i qpn => exact ⟨_, rfl, AgentPc.left_after i⟩
    | spinEpoch => exact absurd ha hspin
    | spinRunning | returned => simp [ha, AgentPc.left] at hs
  obtain ⟨t, ht, -, hta⟩ := hrun
  exact ⟨t, ht, hta⟩

theorem agentRun_drain (q : List (ℕ × ℕ × UInt64)) (ha : s.agent = .spinEpoch)
    (hq : s.syncQueue = q)
    (hpop : ∀ e ∈ q, e.2.2 ≠ (s.records e.1).epoch ∨ (s.records e.1).running = 0) :
    ∃ t, AgentRun s t ∧ t.agent = .returned := by
  induction q generalizing s with
  | nil =>
    have hn : s.agentStep = some { s with agent := .returned } := by
      simp [State.agentStep, ha, hq]
    exact ⟨_, .single hn, rfl⟩
  | cons e rest ih =>
    obtain ⟨idx, qpn, ep⟩ := e
    obtain ⟨t, ht, hta⟩ := ih (s := { s with syncQueue := rest }) ha rfl fun e he =>
      hpop e (mem_cons_of_mem _ he)
    refine ⟨t, ?_, hta⟩
    by_cases hep : ep = (s.records idx).epoch
    · have hrun : (s.records idx).running = 0 :=
        (hpop _ mem_cons_self).resolve_left fun hne => hne hep
      have hn : s.agentStep = some { s with agent := .spinRunning } := by
        simp [State.agentStep, ha, hq, hep]
      refine .head hn ?_
      refine .head ?_ ht
      simp [State.agentStep, hq, hrun, ha]
    · exact .head (by simp [State.agentStep, ha, hq, hep]) ht

theorem agentRun_returned (ha : s.agent = .spinEpoch) (hrun : ∀ i, (s.records i).running = 0) :
    ∃ t, AgentRun s t ∧ t.agent = .returned :=
  agentRun_drain s.syncQueue ha rfl fun e _ => .inr (hrun e.1)

/-- In an orderly run no call with an old credit has still to post when `wait_sync` has returned,
on either path. -/
theorem waitSync_quiescent {s : State} (h : system.RunWith Orderly s) (hret : s.agent = .returned)
    (i : ℕ) : (s.records i).call.oldPending = false := by
  have hi : Inv s := h.invariant (fun _ => Inv.start) fun _ _ _ hi hc hn => hi.step hc hn
  by_contra ho
  obtain ⟨q, hm⟩ := (hi.record i).queued (by simpa using ho) (by rw [hret]; trivial)
  simp [hi.empty hret] at hm

def oneQp : State where
  credit _ := 0
  newCredit _ := 1
  records := update (fun _ => .zero) 7 { Recorder.zero with qpn := 71 }
  mapped := update (fun _ => false) 0 true
  agent := .install 0
  syncQueue := []

theorem oneQp_idle (i : ℕ) : (oneQp.records i).call = .idle ∧ (oneQp.records i).running = 0 := by
  by_cases hi : i = 7
  · subst hi
    exact ⟨rfl, rfl⟩
  · simp [oneQp, hi, Recorder.zero]

/-- The call on the queue pair of `oneQp` after it has read the credit 0 or 1 of slot 0. -/
def loaded (pc : CallPc) : Recorder := ⟨71, fun _ => 0, fun _ => 0, 1, 1, pc⟩

theorem runWith_loaded (credit : UInt16) :
    system.RunWith Orderly ({ oneQp with credit := fun _ => credit }.setRecord 7
      (loaded (if credit = 0 then .countRnic 0 true else .countCpu 0 true))) := by
  have h0 : system.RunWith Orderly { oneQp with credit := fun _ => credit } :=
    .start ⟨fun i => (oneQp_idle i).1, rfl, rfl⟩
  refine h0.exec [.post 7 0, .call 7, .call 7, .call 7] ?_ ?_
  · simp [System.AllSteps, Orderly]
  · simp [System.exec, system, next, State.setRecord, oneQp, Recorder.zero, Recorder.step,
      counterIdx, AgentPc.stored, maxRecorderNum, loaded]

/-- An old call on the RPC path ends after `wait_sync` has seen its epoch, and then it returns. -/
theorem waitSync_quiescent_oneQp :
    ∃ s, system.RunWith Orderly s ∧ s.agent = .returned ∧ (s.records 7).cCounters 0 = 1 ∧
      ∀ i, (s.records i).call.oldPending = false := by
  have h0 := runWith_loaded 1
  obtain ⟨s, hs, ha⟩ := agentRun_scanned (s := { oneQp with credit := fun _ => 1 }.setRecord 7
    (loaded (.countCpu 0 true))) rfl
  have h7 : s.records 7 = loaded (.countCpu 0 true) := by
    rw [hs.frame.1]
    simp [State.setRecord]
  let r : Recorder := ⟨71, fun _ => 0, update (fun _ => 0) 0 1, 0, 1, .idle⟩
  have h1 : system.RunWith Orderly (s.setRecord 7 r) := by
    refine (hs.runWith (fun _ => trivial) h0).exec [.call 7, .call 7, .call 7] ?_ ?_
    · simp [System.AllSteps, Orderly]
    · simp [System.exec, system, next, State.setRecord, h7, Recorder.step, loaded, r]
  obtain ⟨t, ht, hret⟩ := agentRun_returned (s := s.setRecord 7 r) ha fun i => by
    by_cases hi : i = 7
    · simp [State.setRecord, hi, r]
    · simp [State.setRecord, hi, hs.frame.1, (oneQp_idle i).2]
  have hrun := ht.runWith (fun _ => trivial) h1
  refine ⟨t, hrun, hret, ?_, waitSync_quiescent hrun hret⟩
  simp [ht.frame.1, State.setRecord, r]

/-- The first queue pair of another process clears the flag of a call with an old credit, and
`wait_sync` returns before this call posts. -/
theorem not_quiescent_secondProcess :
    ∃ s, system.Reachable s ∧ s.agent = .returned ∧ (s.records 7).call.oldPending = true := by
  have h1 := (runWith_loaded 0).reachable.step (.openShm 1) rfl
  obtain ⟨s, hs, ha⟩ := agentRun_scanned (s := ({ oneQp with credit := fun _ => 0 }.setRecord 7
    (loaded (.countRnic 0 true))).openShm 1) rfl
  obtain ⟨t, ht, hret⟩ := agentRun_returned ha fun i => by rw [hs.frame.1]; rfl
  refine ⟨t, AgentRun.runWith (fun _ => trivial) (hs.trans ht) h1, hret, ?_⟩
  rw [ht.frame.1, hs.frame.1]
  rfl

end Fusa.Agent.WaitSync

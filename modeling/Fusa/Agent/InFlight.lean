import Fusa.Agent.WaitSync

/-! Atomics in flight to the RNIC while the agent installs a strategy, waits in `wait_sync` and
posts its consensus FAA. -/
namespace Fusa.Agent.InFlight
open Transition Function List Option
open WaitSync (CallPc AgentPc Recorder)

/-- The consensus FAA, which has a queue pair of its own. -/
inductive FaaPc
  | none
  | posted
  | executed
deriving DecidableEq, Repr

/-- `slot i` is the last counter index on queue pair `i`, and `rnic i` its atomics not executed:
their slots, and whether their credit is an earlier strategy's. -/
structure State where
  ws : WaitSync.State
  slot : ℕ → ℕ
  rnic : ℕ → List (ℕ × Bool)
  faa : FaaPc

inductive Action
  | driver (a : WaitSync.Action)
  | execute (i : ℕ)
  | postFaa
  | executeFaa
  | newPhase (newCredit : ℕ → UInt16)

/-- A credit that was read before this phase belongs to an earlier strategy. -/
def age : CallPc → CallPc
  | .countRnic c _ => .countRnic c true
  | .postRnic _ => .postRnic true
  | .countCpu c _ => .countCpu c true
  | .postRpc _ => .postRpc true
  | pc => pc

def handedOver (slot : ℕ) : CallPc → List (ℕ × Bool)
  | .postRnic old => [(slot, old)]
  | _ => []

def next (s : State) : Action → Option State
  | .driver (.post i remoteAddr) =>
    (WaitSync.next s.ws (.post i remoteAddr)).map fun ws =>
      { s with ws, slot := update s.slot i (counterIdx remoteAddr) }
  | .driver (.call i) =>
    (WaitSync.next s.ws (.call i)).map fun ws =>
      { s with
        ws
        rnic := update s.rnic i
          (s.rnic i ++ handedOver (s.slot i) (s.ws.records i).call) }
  | .driver a => (WaitSync.next s.ws a).map fun ws => { s with ws }
  | .execute i =>
    match s.rnic i with
    | [] => none
    | _ :: rest => some { s with rnic := update s.rnic i rest }
  | .postFaa =>
    match s.ws.agent, s.faa with
    | .returned, .none => some { s with faa := .posted }
    | _, _ => none
  | .executeFaa => if s.faa = .posted then some { s with faa := .executed } else none
  | .newPhase newCredit =>
    if s.faa = .executed then
      some { s with
        ws := { s.ws with
          newCredit
          records := fun i => { s.ws.records i with call := age (s.ws.records i).call }
          agent := .install 0 }
        rnic := fun i => (s.rnic i).map fun p => (p.1, true)
        faa := .none }
    else none

def system : System State Action where
  start s := WaitSync.system.start s.ws ∧ (∀ i, s.rnic i = []) ∧ s.faa = .none
  next := next

def State.routed (s : State) (i : ℕ) : List (ℕ × Bool) :=
  s.rnic i ++
    match (s.ws.records i).call with
    | .countRnic _ old | .postRnic old => [(s.slot i, old)]
    | _ => []

/-- At the consensus FAA no atomic of an earlier strategy is out on a slot that went to the CPU. -/
def Drained (s : State) : Prop :=
  s.faa = .posted → ∀ i c, (c, true) ∈ s.routed i → s.ws.newCredit c ≠ 1

/-- An atomic with an earlier strategy's credit is outstanding on a slot that goes to the CPU. -/
def Moved (newCredit : ℕ → UInt16) (rnic : List (ℕ × Bool)) : Prop :=
  ∃ c, (c, true) ∈ rnic ∧ newCredit c = 1

/-- While such an atomic is outstanding its queue pair does not advance its epoch behind the
agent's back or take `running` down, and no process clears the region; what is in flight when the
next phase begins has kept its recorder. -/
def Orderly (s : State) : Action → Prop
  | .driver (.openShm p) =>
    WaitSync.Orderly s.ws (.openShm p) ∧ ∀ i, ¬ Moved s.ws.newCredit (s.rnic i)
  | .driver (.call i) =>
    match (s.ws.records i).call with
    | .faaEpoch _ => s.ws.agent.past i → ¬ Moved s.ws.newCredit (s.rnic i)
    | .clearRunning => ¬ Moved s.ws.newCredit (s.rnic i)
    | _ => True
  | .newPhase newCredit => ∀ i, let r := s.ws.records i
    (r.call ≠ .idle → r.Held i) ∧
      ∀ p ∈ s.rnic i, newCredit p.1 = 1 → i < maxRecorderNum ∧ r.qpn ≠ 0 ∧ r.running ≠ 0
  | _ => True

/-- Such an atomic holds its queue pair: `running` is up, and the epoch is queued. -/
structure InvAt (ws : WaitSync.State) (i : ℕ) (r : Recorder) (rnic : List (ℕ × Bool)) : Prop where
  up : Moved ws.newCredit rnic → i < maxRecorderNum ∧ r.qpn ≠ 0 ∧ r.running ≠ 0
  queued : Moved ws.newCredit rnic → ws.agent.past i → ∃ qpn, (i, qpn, r.epoch) ∈ ws.syncQueue

structure Inv (s : State) : Prop where
  ws : WaitSync.Inv s.ws
  rnic : ∀ i, InvAt s.ws i (s.ws.records i) (s.rnic i)
  faa : s.faa ≠ .none → s.ws.agent = .returned

variable {i : ℕ} {r : Recorder} {s : State} {ws : WaitSync.State} {rnic : List (ℕ × Bool)}

theorem InvAt.of_not_moved (h : ¬ Moved ws.newCredit rnic) : InvAt ws i r rnic :=
  ⟨fun hm => absurd hm h, fun hm => absurd hm h⟩

theorem Inv.start (h : system.start s) : Inv s := by
  refine ⟨.start h.1, fun i => .of_not_moved ?_, fun hf => absurd h.2.2 hf⟩
  simp [Moved, h.2.1 i]

theorem age_marked (pc : CallPc) : (age pc).marked = pc.marked := by
  cases pc <;> rfl

theorem InvAt.call {slot : ℕ} {r' : Recorder} (h : InvAt ws i r rnic)
    (hw : WaitSync.InvAt ws.agent ws.syncQueue i r) (hn : r.step ws.credit ws.agent = some r')
    (he : ∀ c, r.call = .faaEpoch c → ws.agent.past i → ¬ Moved ws.newCredit rnic)
    (hc : r.call = .clearRunning → ¬ Moved ws.newCredit rnic) :
    InvAt ws i r' (rnic ++ handedOver slot r.call) := by
  cases hpc : r.call with
  | postRnic old =>
    simp only [Recorder.step, hpc] at hn
    cases hn
    -- an atomic handed over with an old credit is held as its call was
    have hm : Moved ws.newCredit (rnic ++ handedOver slot (.postRnic old)) →
        Moved ws.newCredit rnic ∨ r.call.oldPending = true := by
      rintro ⟨c, hm, h1⟩
      obtain hm | hm := mem_append.mp hm
      · exact .inl ⟨c, hm, h1⟩
      · simp only [handedOver, mem_singleton, Prod.mk.injEq] at hm
        simp [hpc, CallPc.oldPending, ← hm.2]
    exact ⟨fun hx => (hm hx).elim h.up hw.up, fun hx => (hm hx).elim h.queued hw.queued⟩
  | faaEpoch c =>
    simp only [Recorder.step, hpc] at hn
    cases hn
    simp only [handedOver, append_nil]
    exact ⟨h.up, fun hm hp => absurd hm (he c hpc hp)⟩
  | clearRunning =>
    simp only [handedOver, append_nil]
    exact .of_not_moved (hc hpc)
  | casRunning c =>
    simp only [Recorder.step, hpc] at hn
    cases hn
    simp only [handedOver, append_nil]
    refine ⟨fun hm => ?_, h.queued⟩
    obtain ⟨hi, hq, hrun⟩ := h.up hm
    exact ⟨hi, hq, by simp [hrun]⟩
  | idle => simp [Recorder.step, hpc] at hn
  | loadCredit | countRnic | countCpu | postRpc =>
    simp only [Recorder.step, hpc] at hn
    cases hn
    simp only [handedOver, append_nil]
    exact ⟨h.up, h.queued⟩

namespace Inv
variable {t : State}

theorem newPhase {newCredit : ℕ → UInt16} (hc : Orderly s (.newPhase newCredit))
    (hn : next s (.newPhase newCredit) = some t) : Inv t := by
  obtain ⟨-, ⟨⟩⟩ := ite_none_right_eq_some.mp hn
  refine ⟨⟨fun i => ⟨fun hm => ?_, fun _ hp => hp.elim⟩, by simp⟩,
    fun i => ⟨fun hm => ?_, fun _ hp => hp.elim⟩, by simp⟩
  · obtain ⟨hi, hq, hrun⟩ := (hc i).1 fun hidle => by
      simp [hidle, age, CallPc.mayBeOld, CallPc.oldPending] at hm
    exact ⟨hi, hq, fun hmark => hrun (by rwa [age_marked] at hmark)⟩
  · obtain ⟨c, hm, h1⟩ := hm
    obtain ⟨p, hp, he⟩ := mem_map.mp hm
    cases he
    exact (hc i).2 p hp h1

variable (h : Inv s)
include h

theorem setRecord (slot : ℕ → ℕ) (hws : WaitSync.Inv ws) (he : ws = s.ws.setRecord i r)
    (hr : InvAt s.ws i r rnic) : Inv { s with ws, slot, rnic := update s.rnic i rnic } := by
  subst he
  refine ⟨hws, fun j => ?_, h.faa⟩
  by_cases hj : j = i
  · subst hj
    have hup := hr.up
    have hq := hr.queued
    exact ⟨by simpa [WaitSync.State.setRecord] using hup,
      by simpa [WaitSync.State.setRecord] using hq⟩
  · have hup := (h.rnic j).up
    have hq := (h.rnic j).queued
    exact ⟨by simpa [WaitSync.State.setRecord, hj] using hup,
      by simpa [WaitSync.State.setRecord, hj] using hq⟩

theorem driver {a : WaitSync.Action} (hc : Orderly s (.driver a))
    (hn : next s (.driver a) = some t) : Inv t := by
  have hord : WaitSync.Orderly s.ws a := by
    cases a with
    | openShm p => exact hc.1
    | _ => trivial
  cases a with
  | openShm p =>
    obtain ⟨ws, hws, rfl⟩ := map_eq_some_iff.mp hn
    have hinv := h.ws.step hord hws
    obtain ⟨-, ⟨⟩⟩ := ite_none_left_eq_some.mp hws
    exact ⟨hinv, fun i => .of_not_moved (hc.2 i), h.faa⟩
  | createQp p i qpn =>
    obtain ⟨ws, hws, rfl⟩ := map_eq_some_iff.mp hn
    have hinv := h.ws.step hord hws
    simp only [WaitSync.next] at hws
    split at hws
    · obtain ⟨hg, hws⟩ := ite_none_right_eq_some.mp hws
      have hm : ¬ Moved s.ws.newCredit (s.rnic i) := fun hm => ((h.rnic i).up hm).2.1 hg.2.2.1
      have := h.setRecord s.slot hinv (some.inj hws).symm (.of_not_moved hm)
      rwa [update_eq_self] at this
    · cases hws
  | post i remoteAddr =>
    obtain ⟨ws, hws, rfl⟩ := map_eq_some_iff.mp hn
    have hinv := h.ws.step hord hws
    simp only [WaitSync.next] at hws
    split at hws
    · obtain ⟨-, hws⟩ := ite_none_right_eq_some.mp hws
      have := h.setRecord (update s.slot i (counterIdx remoteAddr)) hinv
        (some.inj hws).symm ⟨(h.rnic i).up, (h.rnic i).queued⟩
      rwa [update_eq_self] at this
    · cases hws
  | call i =>
    obtain ⟨ws, hws, rfl⟩ := map_eq_some_iff.mp hn
    have hinv := h.ws.step hord hws
    obtain ⟨r, hr, hset⟩ := map_eq_some_iff.mp hws
    refine h.setRecord _ hinv hset.symm ((h.rnic i).call (h.ws.record i) hr ?_ ?_)
    · intro c hpc
      simpa only [Orderly, hpc] using hc
    · intro hpc
      simpa only [Orderly, hpc] using hc
  | agent =>
    obtain ⟨ws, hws, rfl⟩ := map_eq_some_iff.mp hn
    obtain ⟨hrec, hnew, -⟩ := WaitSync.agentStep_frame hws
    refine ⟨h.ws.step hord hws, fun i => hrec ▸ ⟨hnew ▸ (h.rnic i).up, hnew ▸ ?_⟩, fun hf => ?_⟩
    · exact WaitSync.queued_agentStep (fun j => (h.rnic j).up) (fun j => (h.rnic j).queued) hws
    · have := h.faa hf
      simp [WaitSync.next, WaitSync.State.agentStep, this] at hws

theorem execute (hn : next s (.execute i) = some t) : Inv t := by
  cases hq : s.rnic i with
  | nil => simp [next, hq] at hn
  | cons p rest =>
    simp only [next, hq] at hn
    cases hn
    have hm : Moved s.ws.newCredit rest → Moved s.ws.newCredit (s.rnic i) := by
      rintro ⟨c, hm, h1⟩
      exact ⟨c, hq ▸ mem_cons_of_mem _ hm, h1⟩
    refine ⟨h.ws, ?_, h.faa⟩
    refine (forall_update_iff s.rnic fun j => InvAt s.ws j (s.ws.records j)).mpr ?_
    exact ⟨⟨fun hr => (h.rnic i).up (hm hr), fun hr => (h.rnic i).queued (hm hr)⟩,
      fun j _ => h.rnic j⟩

theorem step {a : Action} (hc : Orderly s a) (hn : next s a = some t) : Inv t := by
  cases a with
  | driver a => exact h.driver hc hn
  | execute i => exact h.execute hn
  | postFaa =>
    simp only [next] at hn
    split at hn
    · rename_i ha hf
      cases hn
      exact ⟨h.ws, h.rnic, fun _ => ha⟩
    · cases hn
  | executeFaa =>
    obtain ⟨hf, ⟨⟩⟩ := ite_none_right_eq_some.mp hn
    exact ⟨h.ws, h.rnic, fun _ => h.faa (by simp [hf])⟩
  | newPhase newCredit => exact newPhase hc hn

/-- Nothing that an earlier strategy routed to a slot of the CPU is out once `wait_sync` returns. -/
theorem drained : Drained s := by
  intro hf i c hm h1
  have hret := h.faa (by simp [hf])
  have hempty := h.ws.empty hret
  have hpast : s.ws.agent.past i := by rw [hret]; trivial
  obtain hm | hm := mem_append.mp hm
  · obtain ⟨q, hq⟩ := (h.rnic i).queued ⟨c, hm, h1⟩ hpast
    simp [hempty] at hq
  · have ho : (s.ws.records i).call.oldPending = true := by
      cases hcall : (s.ws.records i).call with
      | countRnic | postRnic =>
        simp only [hcall, mem_singleton, Prod.mk.injEq] at hm
        simp [CallPc.oldPending, ← hm.2]
      | idle | casRunning | faaEpoch | loadCredit | countCpu | postRpc | clearRunning =>
        simp [hcall] at hm
    obtain ⟨q, hq⟩ := (h.ws.record i).queued ho hpast
    simp [hempty] at hq

end Inv

/-- In an orderly run no atomic of an earlier strategy is in flight at the consensus FAA on a slot
that went to the CPU. -/
theorem drained_of_orderly {s : State} (h : system.RunWith Orderly s) : Drained s :=
  Inv.drained (h.invariant (fun _ => Inv.start) fun _ _ _ hi hc hn => hi.step hc hn)

section
variable {C : State → Action → Prop} (hC : ∀ s, C s (.driver .agent) ∧ C s .postFaa)
include hC

theorem agentRun (h : system.RunWith C s) (hr : WaitSync.AgentRun s.ws ws) :
    system.RunWith C { s with ws } := by
  induction hr with
  | refl => exact h
  | tail _ hn ih =>
    refine ih.step (.driver .agent) (hC _).1 ?_
    simp [system, next, WaitSync.next, hn]

theorem exists_posted (remoteAddr : ℕ) (h : system.RunWith C s)
    (hc : system.AllSteps C s [.driver (.post i remoteAddr), .driver (.call i), .driver (.call i)])
    (ha : s.ws.agent = .spinEpoch) (hf : s.faa = .none)
    (hlive : i < maxRecorderNum ∧ (s.ws.records i).qpn ≠ 0) (hidle : (s.ws.records i).call = .idle)
    (hqueue : ∀ e ∈ s.ws.syncQueue, e.2.2 = (s.ws.records e.1).epoch)
    (hrun : ∀ j, j ≠ i → (s.ws.records j).running = 0) :
    ∃ t, system.RunWith C t ∧ t.faa = .posted ∧ t.rnic = s.rnic ∧
      t.ws.newCredit = s.ws.newCredit := by
  let c := counterIdx remoteAddr
  let r := s.ws.records i
  let r' : Recorder := { r with
    running := if r.running = 0 then 1 else r.running, epoch := r.epoch + 1, call := .loadCredit c }
  obtain ⟨t, ht, htw, htr, htf⟩ : ∃ t, system.RunWith C t ∧ t.ws = s.ws.setRecord i r' ∧
      t.rnic = s.rnic ∧ t.faa = .none := by
    refine ⟨{ s with ws := s.ws.setRecord i r', slot := update s.slot i c },
      h.exec _ hc ?_, rfl, rfl, hf⟩
    simp [System.exec, system, next, WaitSync.next, hidle, hlive, WaitSync.State.setRecord,
      Recorder.step, handedOver, r', r, c]
  have hpop : ∀ e ∈ t.ws.syncQueue, e.2.2 ≠ (t.ws.records e.1).epoch ∨
      (t.ws.records e.1).running = 0 := by
    intro e he
    rw [htw] at he ⊢
    by_cases hi : e.1 = i
    · left
      rw [hqueue e he, hi]
      simp [WaitSync.State.setRecord, r', r]
    · right
      simpa [WaitSync.State.setRecord, hi] using hrun e.1 hi
  obtain ⟨ws, hws, hwa⟩ := WaitSync.agentRun_drain t.ws.syncQueue
    (by rw [htw]; exact ha) rfl hpop
  have hret := agentRun hC ht hws
  refine ⟨{ t with ws, faa := .posted }, hret.step .postFaa (hC _).2 ?_, rfl, htr, ?_⟩
  · simp [system, next, hwa, htf]
  · rw [hws.frame.2, htw]
    rfl

end

def oneQp : State := ⟨WaitSync.oneQp, fun _ => 0, fun _ => [], .none⟩

theorem start_oneQp : system.start oneQp :=
  ⟨⟨fun i => (WaitSync.oneQp_idle i).1, rfl, rfl⟩, fun _ => rfl, rfl⟩

/-- An atomic posted before the install is outstanding when the agent looks at its queue. -/
structure Scanned (s : State) : Prop where
  rnic : s.rnic 7 = [(0, true)]
  agent : s.ws.agent = .spinEpoch
  faa : s.faa = .none
  live : 7 < maxRecorderNum ∧ (s.ws.records 7).qpn ≠ 0
  idle : (s.ws.records 7).call = .idle
  queue : ∀ e ∈ s.ws.syncQueue, e.2.2 = (s.ws.records e.1).epoch
  running : ∀ j, j ≠ 7 → (s.ws.records j).running = 0
  newCredit : s.ws.newCredit 0 = 1

theorem exists_scanned : ∃ s, system.RunWith Orderly s ∧ Scanned s := by
  have h0 : system.RunWith Orderly oneQp := .start start_oneQp
  let r : Recorder := ⟨71, update (fun _ => 0) 0 1, fun _ => 0, 1, 1, .idle⟩
  obtain ⟨s, hs, hw, hr, hf⟩ : ∃ s, system.RunWith Orderly s ∧
      s.ws = WaitSync.oneQp.setRecord 7 r ∧ s.rnic 7 = [(0, true)] ∧ s.faa = .none := by
    refine ⟨{ oneQp with
        ws := WaitSync.oneQp.setRecord 7 r
        slot := update (fun _ => 0) 7 0
        rnic := update (fun _ => []) 7 [(0, true)] },
      h0.exec (.driver (.post 7 0) :: List.replicate 5 (.driver (.call 7))) ?_ ?_, rfl, ?_, rfl⟩
    · simp [System.AllSteps, system, Orderly, next, WaitSync.next, WaitSync.State.setRecord, oneQp,
        WaitSync.oneQp, Recorder.zero, Recorder.step, handedOver, counterIdx, AgentPc.stored,
        maxRecorderNum, List.replicate, Moved]
    · simp [System.exec, system, next, WaitSync.next, WaitSync.State.setRecord, oneQp,
        WaitSync.oneQp, Recorder.zero, Recorder.step, handedOver, counterIdx,
        AgentPc.stored, maxRecorderNum, List.replicate, r]
    · simp
  obtain ⟨ws, hws, hwa⟩ := WaitSync.agentRun_scanned (s := s.ws) (hw ▸ rfl)
  obtain ⟨hrec, hnew⟩ := hws.frame
  have hrec7 : ws.records 7 = r := by
    rw [hrec, hw]
    simp [WaitSync.State.setRecord]
  refine ⟨{ s with ws }, agentRun (fun _ => ⟨trivial, trivial⟩) hs hws, hr, hwa, hf, ?_, ?_, ?_,
    ?_, ?_⟩
  · exact ⟨by decide, by rw [hrec7]; decide⟩
  · rw [hrec7]
  · rw [hrec]
    exact hws.queue (hw ▸ rfl)
  · intro j hj
    simp [hrec, hw, WaitSync.State.setRecord, hj, (WaitSync.oneQp_idle j).2]
  · rw [hnew, hw]
    rfl

theorem drained_oneQp : ∃ s, system.RunWith Orderly s ∧ s.faa = .posted ∧ Drained s := by
  obtain ⟨s, hs, h⟩ := exists_scanned
  have hexec := hs.step (Action.execute 7) trivial (t := { s with rnic := update s.rnic 7 [] })
    (by simp [system, next, h.rnic])
  have hsteps : system.AllSteps Orderly { s with rnic := update s.rnic 7 [] }
      [.driver (.post 7 8), .driver (.call 7), .driver (.call 7)] := by
    simp [System.AllSteps, system, Orderly, next, WaitSync.next, h.idle, h.live,
      WaitSync.State.setRecord, Recorder.step, handedOver, Moved]
  obtain ⟨t, ht, htf, -⟩ := exists_posted (fun _ => ⟨trivial, trivial⟩) 8 hexec hsteps
    h.agent h.faa h.live h.idle h.queue h.running
  exact ⟨t, ht, htf, drained_of_orderly ht⟩

/-- The next atomic moves the epoch, and `wait_sync` goes on while the first one is outstanding. -/
theorem not_drained_secondPost : ∃ s, system.Reachable s ∧ ¬ Drained s := by
  obtain ⟨s, hs, h⟩ := exists_scanned
  obtain ⟨t, ht, htf, htr, htn⟩ := exists_posted (fun _ => ⟨trivial, trivial⟩) 8 hs.reachable
    (by simp [System.AllSteps]) h.agent h.faa h.live h.idle h.queue h.running
  refine ⟨t, ht, fun hd => hd htf 7 0 ?_ (by rw [htn, h.newCredit])⟩
  exact mem_append_left _ (by simp [htr, h.rnic])

end Fusa.Agent.InFlight

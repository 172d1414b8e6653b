import Fusa.Agent.Schedule

/-! The rounds of the agents are in lock step. -/
namespace Fusa.Agent
open Transition List Nat

namespace State
variable {Q : TaskQueue} {cfg : ServerConfig} {s : State}

/-- Round `q` begins, with all clients about to collect. -/
structure RoundStart (cfg : ServerConfig) (q : ℕ) (s : State) : Prop where
  pc : s.pc = .check 0
  phase : s.phase = UInt64.ofNat (q + 1)
  consensus : s.consensus = UInt64.ofNat (cfg.nrMachine * q)
  scanned : s.scanned = fun _ => false
  scannedCnt : s.tally.scannedCnt = 0
  pending : s.pending = fun _ => false
  rounds : s.rounds = q
  machine : ∀ k < cfg.nrMachine, (s.machines k).pc = .collect ∧ (s.machines k).qp = [] ∧
    (s.machines k).phaseBuf = UInt64.ofNat (q + 1) ∧
    (s.machines k).unitPhase = UInt64.ofNat q ∧ (s.machines k).hist.acked = q

/-- The server of round `q` waits for the consensus, and the clients have the strategy. -/
structure RoundWait (cfg : ServerConfig) (q : ℕ) (s : State) : Prop where
  pc : s.pc = .testChanged
  phase : s.phase = UInt64.ofNat (q + 2)
  consensus : s.consensus = UInt64.ofNat (cfg.nrMachine * q)
  tmp : s.tmpConsensus = UInt64.ofNat (cfg.nrMachine * q)
  scanned : s.scanned = fun _ => false
  pending : s.pending = fun _ => false
  rounds : s.rounds = q
  machine : ∀ k < cfg.nrMachine, (s.machines k).pc = .waitStrategy ∧ (s.machines k).qp = [] ∧
    (s.machines k).strategies.phase = UInt64.ofNat (q + 2) ∧
    (s.machines k).phaseBuf = UInt64.ofNat (q + 2) ∧
    (s.machines k).unitPhase = UInt64.ofNat (q + 1) ∧ (s.machines k).hist.acked = q

theorem roundStart_start : RoundStart cfg 0 .start :=
  ⟨rfl, rfl, by simp [start], rfl, rfl, rfl, rfl, fun _ _ => ⟨rfl, rfl, rfl, rfl, rfl⟩⟩

/-- The reports are in, all machines are scanned, and the strategy is made and stored. -/
def published (Q : TaskQueue) (cfg : ServerConfig) (s : State) (reports : ℕ → Report) : State :=
  let u := ((s.mapMachines cfg.nrMachine fun k m => m.reported (reports k)).scanFirst
    cfg.nrMachine).make Q cfg
  { u with pc := .publish [], strategies := u.strategies.applyAll u.plan.decisions }

variable {q : ℕ}

theorem RoundStart.reaches_published (h : s.RoundStart cfg q) (reports : ℕ → Report) :
    (agents Q cfg).Reaches s (s.published Q cfg reports) := by
  apply System.Reaches.trans (reaches_reports reports
    (fun k hk => ⟨(h.machine k hk).1, (h.machine k hk).2.1⟩) _ le_rfl)
  apply System.Reaches.trans (reaches_scanFirst _ _ _ le_rfl)
  · have hc : (Tally.scanAll (List.range cfg.nrMachine) (fun k => ((s.mapMachines cfg.nrMachine
        fun k m => m.reported (reports k)).machines k).unitReport) s.tally).scannedCnt =
        cfg.nrMachine := by
      rw [Tally.scanAll_scannedCnt, h.scannedCnt, length_range, zero_add]
    apply System.Reaches.trans (.step .server (next_make rfl hc))
    exact reaches_publish _ rfl
  · exact h.pc
  · intro k hk
    constructor
    · simp [mapMachines, hk, Machine.reported, (h.machine k hk).2.2.2.1, h.phase, Wrap.ofNat_succ]
    · exact congrFun h.scanned k

theorem numbered_payload (hp : cfg.makesStrategy = false → s.plan.isUniform = true) (k : ℕ) :
    ((s.numbered cfg).payload cfg k).phase = s.phase + 1 := by
  unfold payload
  cases hm : cfg.makesStrategy with
  | true =>
    split
    · simp [numbered, hm]
    · rfl
  | false =>
    have hs : sendsUniform cfg (s.numbered cfg).plan k = false := by
      simp [sendsUniform, numbered, hp hm]
    rw [hs]
    rfl

/-- All machines have got the stored strategy, and the server waits for the consensus. -/
def sent (cfg : ServerConfig) (s : State) : State :=
  let w := s.numbered cfg
  { w.mapMachines cfg.nrMachine fun k m => m.receive (w.payload cfg k) with pc := .testChanged }

theorem RoundStart.reaches_sent (h : s.RoundStart cfg q) (reports : ℕ → Report) :
    (agents Q cfg).Reaches s ((s.published Q cfg reports).sent cfg) := by
  apply (h.reaches_published reports).trans
  apply (reaches_numbered rfl).trans
  exact State.reaches_sent rfl h.pending

theorem RoundStart.roundWait (h : s.RoundStart cfg q) (reports : ℕ → Report) :
    ((s.published Q cfg reports).sent cfg).RoundWait cfg q := by
  let w := (s.published Q cfg reports).numbered cfg
  have hpay : ∀ k, (w.payload cfg k).phase = UInt64.ofNat (q + 2) := by
    intro k
    rw [numbered_payload (fun hm => makePlan_isUniform Q _ hm)]
    show s.phase + 1 = _
    rw [h.phase, ← Wrap.ofNat_succ]
  constructor
  · rfl
  · show s.phase + 1 = _
    rw [h.phase, ← Wrap.ofNat_succ]
  · exact h.consensus
  · exact h.consensus
  · rfl
  · exact h.pending
  · exact h.rounds
  · intro k hk
    obtain ⟨-, hq, hb, hp, ha⟩ := h.machine k hk
    have hm : ((s.published Q cfg reports).sent cfg).machines k =
        (((s.machines k).reported (reports k)).readFirst groupSize).receive (w.payload cfg k) := by
      simp [w, published, sent, mapMachines, hk, numbered, make, scanFirst]
    simp only [hm]
    refine ⟨rfl, hq, hpay k, ?_, ?_, ha⟩
    · show (s.machines k).phaseBuf + 1 = _
      rw [hb, ← Wrap.ofNat_succ]
    · show (s.machines k).unitPhase + 1 = _
      rw [hp, ← Wrap.ofNat_succ]

theorem RoundWait.reaches_agreements {n : ℕ} (h : s.RoundWait cfg q) (hn : n ≤ cfg.nrMachine) :
    (agents Q cfg).Reaches s { s.mapMachines n fun _ m => m.agreed with
      consensus := UInt64.ofNat (cfg.nrMachine * q + n) } := by
  have hr : (agents Q cfg).Reaches s _ := State.reaches_agreements (fun k hk => by
    obtain ⟨hpc, hq, hp, hb, -⟩ := h.machine k hk
    exact ⟨hpc, hq, hp.trans hb.symm⟩) n hn
  rwa [h.consensus, ← UInt64.ofNat_add] at hr

theorem RoundStart.reaches_next (h : s.RoundStart cfg q) (h0 : 0 < cfg.nrMachine)
    (hw : cfg.nrMachine * q + cfg.nrMachine < 2 ^ 64 ∨ cfg.nrMachine ∣ 2 ^ 63)
    (reports : ℕ → Report) : ∃ t, (agents Q cfg).Reaches s t ∧ t.RoundStart cfg (q + 1) := by
  let t := (s.published Q cfg reports).sent cfg
  have hst : (agents Q cfg).Reaches s t := h.reaches_sent reports
  have ht : t.RoundWait cfg q := h.roundWait reports
  have ha : (agents Q cfg).Reaches t _ := ht.reaches_agreements (le_refl _)
  have hc : t.tmpConsensus ≠ UInt64.ofNat (cfg.nrMachine * q + cfg.nrMachine) := by
    rw [ht.tmp, Ne, Wrap.changed_iff (le_refl _) hw]
    omega
  have hl : (agents Q cfg).Reaches { t.mapMachines cfg.nrMachine fun _ m => m.agreed with
      consensus := UInt64.ofNat (cfg.nrMachine * q + cfg.nrMachine) } _ :=
    reaches_leave ht.pc hc ((Wrap.turn_iff h0 (le_refl _) hw).mpr rfl)
  refine ⟨_, hst.trans (ha.trans hl), ?_⟩
  constructor
  · rfl
  · exact ht.phase
  · rfl
  · exact ht.scanned
  · rfl
  · exact ht.pending
  · exact congrArg (· + 1) ht.rounds
  · intro k hk
    obtain ⟨-, hq, -, hb, hp, ha⟩ := ht.machine k hk
    simp only [mapMachines, hk, if_true]
    exact ⟨rfl, hq, hb, hp, congrArg (· + 1) ha⟩

end State

open State

/-- The FAA on the consensus does not wrap, unless the machines divide the counter's period. -/
def NoWrap (cfg : ServerConfig) (s : State) : Step → Prop
  | .complete i => (s.machines i).qp.head? = some .faaConsensus →
      s.consensus.toNat + 1 < 2 ^ 64 ∨ cfg.nrMachine ∣ 2 ^ 63
  | _ => True

section
variable {Q : TaskQueue} {cfg : ServerConfig} {s t : State}

theorem Machine.inv_start : Machine.start.Inv where
  stage := ⟨rfl, rfl, rfl, rfl, rfl, rfl⟩
  phaseBuf := rfl
  unitPhase := rfl
  strategiesPhase := rfl
  mesg := fun h => absurd rfl h
  unitReport := fun _ h => absurd rfl h
  credit := nofun

theorem State.inv_start : State.start.Inv cfg := by
  have hacked : State.start.acked cfg.nrMachine = 0 := by
    rw [acked_eq (q := 0) fun _ _ => rfl, mul_zero]
  exact {
    machine := fun _ _ => Machine.inv_start
    sees := fun _ _ => ⟨rfl, rfl, rfl, zero_le _, rfl⟩
    phase := rfl
    made := rfl
    consensus := by rw [hacked]; rfl
    noWrap := by rw [hacked]; exact .inl (by norm_num)
    start := nofun
    tmp := nofun
    turn := nofun
    read := nofun
    nodup := nodup_nil
    order := fun _ _ => ⟨nofun, nofun⟩
    scannedCnt := fun _ => rfl
    plan := nofun
    uniform := nofun
    payload := nofun }

theorem State.Inv.next {a : Step} (h : s.Inv cfg) (hw : NoWrap cfg s a)
    (hn : (agents Q cfg).next s a = some t) : t.Inv cfg := by
  cases State.next_takes hn with
  | server hn => exact h.serves hn
  | strategy i hi hp => exact h.strategyStep hi hp
  | client i found hi hm =>
    exact h.quiet hi ((h.machine i hi).clientStep hm) (Machine.quiet_clientStep hm)
  | copy i j hi _ hm =>
    have hf := Machine.copyEntry_frame hm
    exact h.quiet hi ((h.machine i hi).copyEntry hm) (Machine.quiet_of_hist hf.1 hf.2)
  | complete i hi hm => exact h.completeStep hi hw hm

theorem inv_of_runWith (h : (agents Q cfg).RunWith (NoWrap cfg) s) : s.Inv cfg := by
  apply System.RunWith.invariant _ _ h
  · intro s hs
    rw [hs]
    exact State.inv_start
  · intro s a t hi hc hn
    exact hi.next hc hn

theorem State.next_acked {a : Step} (hn : (agents Q cfg).next s a = some t) (k : ℕ) :
    (s.machines k).hist.acked ≤ (t.machines k).hist.acked := by
  have hset : ∀ {i m}, (s.machines i).hist.acked ≤ m.hist.acked →
      (s.machines k).hist.acked ≤ ((s.setMachine i m).machines k).hist.acked := fun h =>
    rel_setMachine (R := fun m m' => m.hist.acked ≤ m'.hist.acked) (fun _ => le_refl _) h k
  cases next_takes hn with
  | server h =>
    cases h with
    | readNext i j | readLast i j => exact hset (m := (s.machines i).readEntry j) (le_refl _)
    | _ => exact le_refl _
  | strategy i => exact hset (m := (s.machines i).receive (s.payload cfg i)) (le_refl _)
  | client i found _ hm => exact hset (Machine.clientStep_frame hm).2.2.1.ge
  | copy i j _ _ hm =>
    apply hset
    rw [(Machine.copyEntry_frame hm).1]
  | @complete i m _ hm => exact hset (m := m) (Machine.complete_frame hm).2

theorem runWith_of_reaches (h : (agents Q cfg).RunWith (NoWrap cfg) s)
    (hr : (agents Q cfg).Reaches s t) (ht : t.acked cfg.nrMachine + 1 < 2 ^ 64) :
    (agents Q cfg).RunWith (NoWrap cfg) t := by
  obtain ⟨as, has⟩ := hr
  induction as using List.reverseRecOn generalizing t with
  | nil =>
    cases has
    exact h
  | append_singleton as a ih =>
    obtain ⟨u, hu, hn⟩ := Option.bind_eq_some_iff.mp
      ((foldlM_append (m := Option)).symm.trans has)
    have hn : (agents Q cfg).next u a = some t := by simpa using hn
    have hle : u.acked cfg.nrMachine ≤ t.acked cfg.nrMachine :=
      Finset.sum_le_sum fun k _ => next_acked hn k
    have hrun := ih (t := u) (by omega) hu
    refine hrun.step a ?_ hn
    cases a with
    | complete i =>
      intro _
      left
      rw [(inv_of_runWith hrun).consensus, UInt64.toNat_ofNat']
      omega
    | _ => trivial

end

/-- In a round the server reads each machine's next report once, no report overtakes, each client
sends one consensus FAA, and the wait ends when the consensus has grown by their number. -/
structure LockStep (Q : TaskQueue) (cfg : ServerConfig) (s : State) : Prop where
  unread : ∀ i < cfg.nrMachine, s.pc.made = false → s.scanned i = false →
    (s.machines i).hist.ReadUpTo s.rounds
  reading : ∀ i j, s.pc = .read i j → (s.machines i).hist.ReadInto s.rounds j
  read : ∀ i < cfg.nrMachine, s.pc.made = true ∨ s.scanned i = true ∧ s.pc.reading i = false →
    (s.machines i).hist.ReadUpTo (s.rounds + 1)
  write : ∀ i < cfg.nrMachine, .writeReport ∈ (s.machines i).qp →
    (s.machines i).hist.ReadUpTo ((s.machines i).hist.reports.length - 1)
  acks : ∀ i < cfg.nrMachine, (s.machines i).hist.acks = s.rounds ∨
    (s.machines i).hist.acks = s.rounds + 1 ∧ s.pc.posting = true
  consensus : s.consensus = UInt64.ofNat (s.acked cfg.nrMachine)
  start : s.pc.posting = false → s.acked cfg.nrMachine = cfg.nrMachine * s.rounds
  wait : s.pc = .testChanged ∨ s.pc = .testTurn →
    (s.tmpConsensus ≠ s.consensus ∧ s.consensus.toNat % cfg.nrMachine = 0 ↔
      s.acked cfg.nrMachine = cfg.nrMachine * s.rounds + cfg.nrMachine)
  leave : ∀ t, (agents Q cfg).next s .server = some t → (t.rounds = s.rounds + 1 ↔
    s.pc = .testTurn ∧ s.acked cfg.nrMachine = cfg.nrMachine * s.rounds + cfg.nrMachine)

namespace State.Inv
variable {Q : TaskQueue} {cfg : ServerConfig} {s t : State} {i : ℕ}

section
variable (h : s.Inv cfg)
include h

theorem acked_of_posting (hp : s.pc.posting = false) :
    s.acked cfg.nrMachine = cfg.nrMachine * s.rounds := by
  apply acked_eq
  intro k hk
  rcases h.stage_cases hk with hc | ⟨j, hc⟩ | hc | hc
  · exact hc.2.2.2.1
  · exact hc.2.2.2.1
  · exact hc.1.2.1
  · rw [hp] at hc
    exact absurd hc.1 (by decide)

theorem acks_cases (hi : i < cfg.nrMachine) : (s.machines i).hist.acks = s.rounds ∨
      (s.machines i).hist.acks = s.rounds + 1 ∧ s.pc.posting = true := by
  have hc := (h.machine i hi).counts
  rcases h.stage_cases hi with ⟨-, -, hr, ha, -⟩ | ⟨j, -, -, hr, ha, -⟩ | ⟨⟨hr, ha, -⟩, -⟩ |
    ⟨hp, hr, -⟩
  · left
    omega
  · left
    omega
  · left
    omega
  · by_cases hn : (s.machines i).hist.acks = s.rounds
    · exact .inl hn
    · right
      constructor
      · omega
      · exact hp

theorem readUpTo_of_write (hi : i < cfg.nrMachine) (hw : .writeReport ∈ (s.machines i).qp) :
    (s.machines i).hist.ReadUpTo ((s.machines i).hist.reports.length - 1) := by
  have hm := h.machine i hi
  have hlen : (s.machines i).hist.phases + 1 = (s.machines i).hist.reports.length := by
    rcases hm.qp_cases with hc | ⟨-, hc⟩ | ⟨-, hc⟩ | ⟨-, hc⟩ | ⟨-, hc⟩
    · simp [hc] at hw
    · exact (hm.of_write hc).1
    · exact (hm.of_write hc).1
    · simp [hc] at hw
    · simp [hc] at hw
  have hc := hm.counts
  rcases h.stage_cases hi with ⟨-, -, hr, ha, hu⟩ | ⟨j, -, -, hr, ha, hp, -⟩ |
    ⟨⟨hr, ha, hp, -⟩, -⟩ | ⟨-, hr, hu⟩
  · rw [← hlen, Nat.add_sub_cancel]
    have : (s.machines i).hist.phases = s.rounds := by omega
    rwa [this]
  · omega
  · omega
  · rw [← hlen, Nat.add_sub_cancel]
    have : (s.machines i).hist.phases = s.rounds + 1 := by omega
    rwa [this]

theorem wait_iff (h0 : 0 < cfg.nrMachine) (hpc : s.pc = .testChanged ∨ s.pc = .testTurn) :
    (s.tmpConsensus ≠ s.consensus ∧ s.consensus.toNat % cfg.nrMachine = 0 ↔
      s.acked cfg.nrMachine = cfg.nrMachine * s.rounds + cfg.nrMachine) := by
  obtain ⟨k, hk, ha⟩ := h.exists_acked
  have hno := h.noWrap
  rw [Ne, h.changed_iff hpc, h.consensus]
  rw [ha] at hno ⊢
  constructor
  · intro hc
    have hk0 : 0 < k := by omega
    rw [Wrap.turn_iff hk0 hk hno] at hc
    omega
  · intro hc
    have hkn : k = cfg.nrMachine := by omega
    have hk0 : 0 < k := by omega
    rw [Wrap.turn_iff hk0 hk hno]
    omega

theorem leave_iff (hn : (agents Q cfg).next s .server = some t) : t.rounds = s.rounds + 1 ↔
      s.pc = .testTurn ∧ s.acked cfg.nrMachine = cfg.nrMachine * s.rounds + cfg.nrMachine := by
  cases State.serverStep_serves hn with
  | leave hpc hc => simp [State.newRound, hpc, (h.turn_iff hpc).mp hc]
  | wait hpc hc => simp [hpc, ← h.turn_iff hpc, hc]
  | _ => simp_all [State.enter, State.make, State.readEntry, State.endScan, State.setMachine]

end

end State.Inv

section
variable {Q : TaskQueue} {cfg : ServerConfig} {s : State}

/-- The rounds are in lock step as long as the consensus does not wrap around. -/
theorem lockStep (h0 : 0 < cfg.nrMachine) (h : (agents Q cfg).RunWith (NoWrap cfg) s) :
    LockStep Q cfg s := by
  have hi := inv_of_runWith h
  constructor
  · intro i hn hm hs
    rcases hi.stage_cases hn with ⟨-, -, -, -, hu⟩ | ⟨j, -, ht, -⟩ | ⟨-, -, hc⟩ | ⟨hp, -⟩
    · exact hu
    · rw [hs] at ht
      exact absurd ht (by decide)
    · simp [hm, hs] at hc
    · rw [(ServerPc.made_of_posting hp).1] at hm
      exact absurd hm (by decide)
  · intro i j hpc
    have hs := hi.sees i (hi.read i j hpc)
    simp only [hpc, ServerPc.Sees, if_true] at hs
    exact hs.2.2.2.2.2.2
  · intro i hn hm
    rcases hi.stage_cases hn with ⟨hf, hs, -⟩ | ⟨j, hpc, -, -⟩ | ⟨⟨-, -, -, hu⟩, -⟩ | ⟨-, -, hu⟩
    · simp [hf, hs] at hm
    · simp [hpc, ServerPc.made, ServerPc.reading] at hm
    · exact hu
    · exact hu
  · exact fun i hn hw => hi.readUpTo_of_write hn hw
  · exact fun i hn => hi.acks_cases hn
  · exact hi.consensus
  · exact hi.acked_of_posting
  · exact hi.wait_iff h0
  · exact fun t hn => hi.leave_iff hn

end

theorem exists_roundStart (Q : TaskQueue) {cfg : ServerConfig} (h0 : 0 < cfg.nrMachine) (q : ℕ)
    (hq : cfg.nrMachine * q < 2 ^ 64) : ∃ s, (agents Q cfg).Reachable s ∧ s.RoundStart cfg q := by
  induction q with
  | zero => exact ⟨.start, .start rfl, roundStart_start⟩
  | succ q ih =>
    rw [mul_succ] at hq
    obtain ⟨s, hs, hr⟩ := ih (by omega)
    obtain ⟨t, hst, ht⟩ := hr.reaches_next (Q := Q) h0 (.inl hq) fun _ => .idle
    exact ⟨t, hs.reaches hst, ht⟩

def threeMachines : ServerConfig := ⟨3, 4, 100000, true, false⟩

/-- Three machines, one of them hot, have gone through their first round. -/
theorem exists_wholeRound : ∃ s, (agents (MaxQueue.first _) threeMachines).RunWith
    (NoWrap threeMachines) s ∧ s.RoundStart threeMachines 1 ∧ s.acked 3 = 3 := by
  have h0 : State.start.RoundStart threeMachines 0 := roundStart_start
  obtain ⟨s, hs, hr⟩ := h0.reaches_next (Q := MaxQueue.first _) (by decide) (.inl (by decide))
    hotAndIdle.reports
  have ha : s.acked 3 = 3 := acked_eq fun k hk => (hr.machine k hk).2.2.2.2
  exact ⟨s, runWith_of_reaches (.start rfl) hs (ha ▸ by decide), hr, ha⟩

theorem lockStep_threeMachines : ∃ s, (agents (MaxQueue.first _) threeMachines).Reachable s ∧
    s.rounds = 1 ∧ s.acked 3 = 3 ∧ LockStep (MaxQueue.first _) threeMachines s := by
  obtain ⟨s, hs, hr, ha⟩ := exists_wholeRound
  exact ⟨s, hs.reachable, hr.rounds, ha, lockStep (by decide) hs⟩

def lastRound : ℕ := 6148914691236517205

/-- With three machines the consensus wraps to 0 at the first FAA, and the server stops waiting. -/
theorem not_lockStep_threeMachines : ∃ s t, (agents (MaxQueue.first _) threeMachines).Reachable s ∧
      (agents (MaxQueue.first _) threeMachines).next s .server = some t ∧
      t.rounds = s.rounds + 1 ∧ s.acked 3 = 3 * s.rounds + 1 := by
  have h0 : 0 < threeMachines.nrMachine := by decide
  obtain ⟨s, hs, hr⟩ := exists_roundStart (MaxQueue.first _) h0 lastRound (by decide)
  obtain ⟨t, hst, ht⟩ : ∃ t, (agents (MaxQueue.first _) threeMachines).Reaches s t ∧
      t.RoundWait threeMachines lastRound :=
    ⟨_, hr.reaches_sent fun _ => .idle, hr.roundWait _⟩
  have ha : (agents (MaxQueue.first _) threeMachines).Reaches t _ :=
    ht.reaches_agreements (n := 1) (by decide)
  have hc : UInt64.ofNat (threeMachines.nrMachine * lastRound + 1) = 0 := by decide
  rw [hc] at ha
  have hturn : (agents (MaxQueue.first _) threeMachines).next
      { t.mapMachines 1 fun _ m => m.agreed with consensus := 0 } .server =
      some { t.mapMachines 1 fun _ m => m.agreed with consensus := 0, pc := .testTurn } := by
    have htmp : t.tmpConsensus ≠ 0 := by
      rw [ht.tmp]
      decide
    simp [agents, State.next, serverStep, mapMachines, ht.pc, htmp]
  have hacked : (t.mapMachines 1 fun _ m => m.agreed).acked 3 = 3 * t.rounds + 1 := by
    have h3 : ∀ k < 3, (t.machines k).hist.acked = lastRound := by
      intro k hk
      exact (ht.machine k hk).2.2.2.2.2
    simp [acked, Finset.sum_range_succ, mapMachines, Machine.agreed, h3, ht.rounds]
    omega
  let u := { t.mapMachines 1 fun _ m => m.agreed with consensus := 0, pc := .testTurn }
  have hleave : (agents (MaxQueue.first _) threeMachines).next u .server = some { u with
      pc := .check 0, tally := u.tally.newPhase, rounds := u.rounds + 1, order := [] } := rfl
  exact ⟨u, _, hs.reaches (hst.trans (ha.trans (.step _ hturn))), hleave, rfl, hacked⟩

end Fusa.Agent

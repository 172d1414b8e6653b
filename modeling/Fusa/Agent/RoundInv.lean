import Fusa.Agent.Reading
import Fusa.Lib.Bump

/-! The invariant of the agents' rounds, and the steps of the machines. -/
namespace Fusa.Agent
open Function Finset

namespace State

def acked (n : ℕ) (s : State) : ℕ := ∑ i ∈ Finset.range n, (s.machines i).hist.acked

structure Inv (cfg : ServerConfig) (s : State) : Prop where
  machine : ∀ i < cfg.nrMachine, (s.machines i).Inv
  sees : ∀ i < cfg.nrMachine,
    s.pc.Sees s.rounds i (s.scanned i) (s.pending i) (s.machines i)
  phase : s.phase = UInt64.ofNat (s.rounds + 1 + s.pc.bumped.toNat)
  made : s.made = s.rounds + s.pc.made.toNat
  consensus : s.consensus = UInt64.ofNat (s.acked cfg.nrMachine)
  noWrap : s.acked cfg.nrMachine < 2 ^ 64 ∨ cfg.nrMachine ∣ 2 ^ 63
  start : 0 < s.made → s.startConsensus = UInt64.ofNat (cfg.nrMachine * (s.made - 1))
  tmp : s.pc.posting = true → s.tmpConsensus = UInt64.ofNat (cfg.nrMachine * s.rounds)
  turn : s.pc = .testTurn → cfg.nrMachine * s.rounds < s.acked cfg.nrMachine
  read : ∀ i j, s.pc = .read i j → i < cfg.nrMachine
  nodup : s.order.Nodup
  order : s.pc.made = false → ∀ i, i ∈ s.order ↔ i < cfg.nrMachine ∧ s.scanned i = true ∧
    s.pc.reading i = false
  scannedCnt : s.pc.made = false → s.tally.scannedCnt = s.order.length
  plan : s.pc.made = true → cfg.makesStrategy = false → s.plan.isUniform = true
  uniform : s.pc.ready = true → ∀ i, sendsUniform cfg s.plan i = true →
    s.uniformStrag.phase = s.phase
  payload : ∀ i < cfg.nrMachine, 0 < s.made → (s.machines i).hist.received = s.made →
    (s.machines i).strategies = s.payload cfg i

variable {cfg : ServerConfig} {s t : State} {i : ℕ} {m : Machine}

@[simp] theorem setMachine_self : (s.setMachine i m).machines i = m := by
  simp [setMachine]

theorem setMachine_of_ne {k : ℕ} (h : k ≠ i) : (s.setMachine i m).machines k = s.machines k := by
  simp [setMachine, h]

theorem forall_setMachine {P : ℕ → Machine → Prop} {n : ℕ} (hm : P i m)
    (h : ∀ k < n, P k (s.machines k)) : ∀ k < n, P k ((s.setMachine i m).machines k) :=
  (forall_update_iff s.machines fun k m => k < n → P k m).mpr ⟨fun _ => hm, fun k _ => h k⟩

theorem rel_setMachine {R : Machine → Machine → Prop} (hr : ∀ m, R m m) (h : R (s.machines i) m)
    (k : ℕ) : R (s.machines k) ((s.setMachine i m).machines k) :=
  (forall_update_iff s.machines fun k m => R (s.machines k) m).mpr ⟨h, fun _ _ => hr _⟩ k

theorem acked_setMachine (n : ℕ) (hi : i < n) :
    (s.setMachine i m).acked n + (s.machines i).hist.acked = s.acked n + m.hist.acked :=
  Cover.sum_update _ (fun _ m => m.hist.acked) s.machines (mem_range.mpr hi) m

section
variable (h : s.Inv cfg) (hi : i < cfg.nrMachine)
include h hi

theorem Inv.setMachine (hm : m.Inv) (hs : s.pc.Sees s.rounds i (s.scanned i) (s.pending i) m)
    (ha : m.hist.acked = (s.machines i).hist.acked)
    (hr : m.hist.received = (s.machines i).hist.received)
    (hst : m.strategies = (s.machines i).strategies) : (s.setMachine i m).Inv cfg := by
  have hacked : (s.setMachine i m).acked cfg.nrMachine = s.acked cfg.nrMachine := by
    have := acked_setMachine (s := s) (m := m) cfg.nrMachine hi
    omega
  exact { h with
    machine := forall_setMachine hm h.machine
    sees := forall_setMachine
      (P := fun k m => s.pc.Sees s.rounds k (s.scanned k) (s.pending k) m) hs h.sees
    consensus := by rw [hacked]; exact h.consensus
    noWrap := by rw [hacked]; exact h.noWrap
    turn := by rw [hacked]; exact h.turn
    payload := forall_setMachine
      (P := fun k m => 0 < s.made → m.hist.received = s.made → m.strategies = s.payload cfg k)
      (fun h0 hrm => hst.trans (h.payload i hi h0 (hr.symm.trans hrm))) h.payload }

theorem Inv.quiet (hm : m.Inv) (hq : (s.machines i).Quiet m) : (s.setMachine i m).Inv cfg :=
  h.setMachine hi hm ((h.sees i hi).quiet hq) hq.acked hq.received hq.strategies

theorem Inv.faaConsensus (hm : m.Inv)
    (ha : (s.machines i).hist.acked + 1 = (s.machines i).hist.received)
    (hh : m.hist = { (s.machines i).hist with acked := (s.machines i).hist.acked + 1 })
    (hst : m.strategies = (s.machines i).strategies)
    (hw : s.consensus.toNat + 1 < 2 ^ 64 ∨ cfg.nrMachine ∣ 2 ^ 63) :
    ({ s.setMachine i m with consensus := s.consensus + 1 } : State).Inv cfg := by
  have hacked : (s.setMachine i m).acked cfg.nrMachine = s.acked cfg.nrMachine + 1 := by
    have := acked_setMachine (s := s) (m := m) cfg.nrMachine hi
    rw [hh] at this
    dsimp only at this
    omega
  have hno : s.acked cfg.nrMachine + 1 < 2 ^ 64 ∨ cfg.nrMachine ∣ 2 ^ 63 := by
    rcases h.noWrap with hlt | hd
    · rwa [h.consensus, UInt64.toNat_ofNat', Nat.mod_eq_of_lt hlt] at hw
    · exact .inr hd
  exact { h with
    machine := forall_setMachine hm h.machine
    sees := forall_setMachine
      (P := fun k m => s.pc.Sees s.rounds k (s.scanned k) (s.pending k) m)
      ((h.sees i hi).faaConsensus ha hh) h.sees
    consensus := by
      show s.consensus + 1 = UInt64.ofNat ((s.setMachine i m).acked cfg.nrMachine)
      rw [hacked, h.consensus, Wrap.ofNat_succ]
    noWrap := by
      show (s.setMachine i m).acked cfg.nrMachine < 2 ^ 64 ∨ _
      rwa [hacked]
    turn := fun hpc => by
      show _ < (s.setMachine i m).acked cfg.nrMachine
      rw [hacked]
      exact Nat.lt_succ_of_lt (h.turn hpc)
    payload := forall_setMachine
      (P := fun k m => 0 < s.made → m.hist.received = s.made → m.strategies = s.payload cfg k)
      (fun h0 hrm => by
        rw [hh] at hrm
        exact hst.trans (h.payload i hi h0 hrm)) h.payload }

theorem Inv.completeStep
    (hw : (s.machines i).qp.head? = some .faaConsensus → s.consensus.toNat + 1 < 2 ^ 64 ∨
      cfg.nrMachine ∣ 2 ^ 63) (hm : (s.machines i).complete = some m) :
    ({ s.setMachine i m with
      consensus := if (s.machines i).qp.head? = some .faaConsensus then s.consensus + 1
        else s.consensus } : State).Inv cfg := by
  have hmi := h.machine i hi
  obtain ⟨hmInv, hst, hc⟩ := hmi.complete hm
  rcases hc with ⟨hq, hh⟩ | ⟨hq, hp, hh⟩ | ⟨hq, ha, hh⟩
  · rw [hq, if_neg (by decide)]
    exact h.quiet hi hmInv (Machine.quiet_of_hist hh hst)
  · rw [hq, if_neg (by decide)]
    exact h.setMachine hi hmInv ((h.sees i hi).faaPhase hp hh) (by rw [hh]) (by rw [hh]) hst
  · rw [hq, if_pos rfl]
    exact h.faaConsensus hi hmInv ha hh hst (hw hq)

theorem Inv.strategyStep (hp : s.pending i = true) :
    ({ s.setMachine i ((s.machines i).receive (s.payload cfg i)) with
      pending := update s.pending i false } : State).Inv cfg := by
  have hsees := h.sees i hi
  rw [hp] at hsees
  have hw := hsees.waits
  have hb := hsees.posting
  let m := (s.machines i).receive (s.payload cfg i)
  have hacked : (s.setMachine i m).acked cfg.nrMachine = s.acked cfg.nrMachine := by
    have := acked_setMachine (s := s) (m := m) cfg.nrMachine hi
    have hr : m.hist.acked = (s.machines i).hist.acked := rfl
    omega
  have hphase : (s.payload cfg i).phase = UInt64.ofNat ((s.machines i).hist.received + 2) := by
    have hpay : (s.payload cfg i).phase = s.phase := by
      unfold State.payload
      split
      · exact h.uniform hb.2.1 i ‹_›
      · rfl
    rw [hpay, h.phase, hb.2.2.1, hw.1]
    rfl
  have hmi : m.Inv := (h.machine i hi).receive (by rw [hw.2.2.1, hw.1]) hphase
  have hsent : m.Sent s.rounds := ⟨congrArg (· + 1) hw.1, hw.2.2.2⟩
  exact { h with
    machine := forall_setMachine hmi h.machine
    sees := by
      intro k hk
      show s.pc.Sees s.rounds k (s.scanned k) (update s.pending i false k)
        ((s.setMachine i _).machines k)
      by_cases he : k = i
      · subst he
        rw [setMachine_self, update_self]
        exact hsees.receive hsent
      · rw [setMachine_of_ne he, update_of_ne he]
        exact h.sees k hk
    consensus := h.consensus.trans (congrArg UInt64.ofNat hacked.symm)
    noWrap := by
      show (s.setMachine i _).acked cfg.nrMachine < _ ∨ _
      rw [hacked]
      exact h.noWrap
    turn := fun hpc => lt_of_lt_of_eq (h.turn hpc) hacked.symm
    payload := forall_setMachine
      (P := fun k m => 0 < s.made → m.hist.received = s.made → m.strategies = s.payload cfg k)
      (fun _ _ => rfl) h.payload }

theorem Inv.stage_cases : s.pc.made = false ∧ s.scanned i = false ∧ (s.machines i).Idle s.rounds ∨
    (∃ j, s.pc = .read i j ∧ s.scanned i = true ∧ (s.machines i).Reading s.rounds j) ∨
    (s.machines i).Waits s.rounds ∧ s.pc.reading i = false ∧
      (s.pc.made = true ∨ s.scanned i = true) ∨
    s.pc.posting = true ∧ (s.machines i).Sent s.rounds := by
  have hs := h.sees i hi
  cases hpc : s.pc <;> simp only [hpc, ServerPc.Sees] at hs <;>
    simp only [ServerPc.made, ServerPc.posting, ServerPc.reading] <;> grind

theorem Inv.acked_bounds :
    s.rounds ≤ (s.machines i).hist.acked ∧ (s.machines i).hist.acked ≤ s.rounds + 1 := by
  have hc := (h.machine i hi).counts
  rcases h.stage_cases hi with ⟨-, -, -, ha, -⟩ | ⟨j, -, -, -, ha, -⟩ | ⟨⟨-, ha, -⟩, -⟩ | ⟨-, hr, -⟩
  · omega
  · omega
  · omega
  · omega

end

theorem Inv.exists_acked (h : s.Inv cfg) :
    ∃ k ≤ cfg.nrMachine, s.acked cfg.nrMachine = cfg.nrMachine * s.rounds + k := by
  have hlo : cfg.nrMachine * s.rounds ≤ s.acked cfg.nrMachine := by
    have := card_nsmul_le_sum (Finset.range cfg.nrMachine)
      (fun k => (s.machines k).hist.acked) s.rounds
      fun k hk => (h.acked_bounds (mem_range.mp hk)).1
    simpa [State.acked] using this
  have hhi : s.acked cfg.nrMachine ≤ cfg.nrMachine * (s.rounds + 1) := by
    have := sum_le_card_nsmul (Finset.range cfg.nrMachine)
      (fun k => (s.machines k).hist.acked) (s.rounds + 1)
      fun k hk => (h.acked_bounds (mem_range.mp hk)).2
    simpa [State.acked] using this
  rw [Nat.mul_succ] at hhi
  exact ⟨s.acked cfg.nrMachine - cfg.nrMachine * s.rounds, by omega, by omega⟩

theorem Inv.acked_of_sum (h : s.Inv cfg)
    (hs : s.acked cfg.nrMachine = cfg.nrMachine * s.rounds + cfg.nrMachine)
    (hi : i < cfg.nrMachine) : (s.machines i).hist.acked = s.rounds + 1 := by
  have hsum : ∑ k ∈ Finset.range cfg.nrMachine, (s.machines k).hist.acked =
      ∑ _k ∈ Finset.range cfg.nrMachine, (s.rounds + 1) := by
    rw [← Nat.mul_succ] at hs
    simpa [State.acked] using hs
  exact (sum_eq_sum_iff_of_le fun k hk =>
    (h.acked_bounds (mem_range.mp hk)).2).mp hsum i (mem_range.mpr hi)

end State
end Fusa.Agent

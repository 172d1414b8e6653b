import Fusa.Agent.Turns
import Fusa.Agent.LockStep

/-! The credits that a phase switches, and when the machines agree on them. -/
namespace Fusa.Agent
open Transition Function List

namespace State

def Switched (s : State) (c : ℕ) : Prop := s.prevCredit c = 0 ∧ s.strategies.credit c = 1

/-- Machine `i` has this phase's credits in its region and has sent its consensus FAA. -/
def Agreed (cfg : ServerConfig) (s : State) (i : ℕ) : Prop :=
  (∀ c < groupSize, (s.machines i).credit c = (s.payload cfg i).credit c) ∧
    (s.machines i).hist.installed = s.made ∧ (s.machines i).hist.acks = s.made

/-- The server is about to make a strategy, with which the next phase begins. -/
def Makes (cfg : ServerConfig) (s : State) : Step → Prop
  | .server => match s.pc with
    | .check i => cfg.nrMachine ≤ i ∧ s.tally.scannedCnt = cfg.nrMachine
    | _ => False
  | _ => False

def Fresh (s : State) (ds : List Decision) : Prop :=
  (ds.map (·.idx)).Nodup ∧ 0 < s.made ∧
    ∀ d ∈ ds, d.saveOld = true ∧ s.strategies.credit d.idx = s.prevCredit d.idx

/-- A credit that the phase has changed is found unchanged in `old_strategies`. -/
structure SwitchInv (s : State) : Prop where
  saved : ∀ c, s.strategies.credit c ≠ s.prevCredit c →
    s.strategies.old c = s.prevCredit c ∧ 0 < s.made
  publish : ∀ ds, s.pc = .publish ds → s.Fresh ds
  store : ∀ d ds, s.pc = .store d ds →
    s.Fresh (d :: ds) ∧ s.strategies.old d.idx = s.prevCredit d.idx

variable {Q : TaskQueue} {cfg : ServerConfig} {s t : State} {a : Step} {i : ℕ}

/-- What a step can do to the strategy. -/
inductive Stores (s t : State) : Prop
  | save (d : Decision) (ds : List Decision) (hs : s.pc = .publish (d :: ds))
      (ht : t.pc = .store d ds) (he : t.strategies = s.strategies.saveOld d)
  | store (d : Decision) (ds : List Decision) (hs : s.pc = .store d ds)
      (ht : t.pc = .publish ds) (he : t.strategies = s.strategies.store d)
  | keep (he : t.strategies = s.strategies)
      (hp : ∀ ds, t.pc = .publish ds → s.pc = .publish ds)
      (hs : ∀ d ds, t.pc = .store d ds → s.pc = .store d ds)

theorem Stores.of_pc (he : t.strategies = s.strategies) (hp : t.pc.making = false) :
    Stores s t := by
  apply Stores.keep he
  · intro ds hds
    rw [hds] at hp
    cases hp
  · intro d ds hds
    rw [hds] at hp
    cases hp

theorem Serves.stores (h : Serves Q cfg s t) (hm : ¬ s.Makes cfg .server) :
    t.prevCredit = s.prevCredit ∧ t.made = s.made ∧ Stores s t := by
  cases h with
  | make i hpc hi hc =>
    unfold Makes at hm
    simp only [hpc] at hm
    exact absurd ⟨hi, hc⟩ hm
  | save d ds hpc => exact ⟨rfl, rfl, .save d ds hpc rfl rfl⟩
  | store d ds hpc => exact ⟨rfl, rfl, .store d ds hpc rfl rfl⟩
  | number hpc =>
    refine ⟨rfl, rfl, .keep rfl ?_ ?_⟩
    · intro ds hds
      split at hds <;> cases hds
    · intro d ds hds
      split at hds <;> cases hds
  | uniformPhase hpc =>
    refine ⟨rfl, rfl, .keep rfl ?_ ?_⟩
    · intro ds hds
      cases hds
    · intro d ds hds
      cases hds
  | _ => exact ⟨rfl, rfl, .of_pc rfl rfl⟩

section
variable (hn : (agents Q cfg).next s a = some t)
include hn

theorem next_stores (hm : ¬ s.Makes cfg a) :
    t.prevCredit = s.prevCredit ∧ t.made = s.made ∧ Stores s t := by
  cases next_takes hn with
  | server h => exact h.stores hm
  | _ => exact ⟨rfl, rfl, .keep rfl (fun _ h => h) fun _ _ h => h⟩

theorem next_of_makes (hm : s.Makes cfg a) : t = s.make Q cfg := by
  unfold Makes at hm
  cases next_takes hn with
  | server h =>
    cases h with
    | make => rfl
    | skip i hpc hi | enter i hpc hi =>
      simp only [hpc] at hm
      omega
    | again i hpc _ hc =>
      simp only [hpc] at hm
      exact absurd hm.2 hc
    | _ => simp_all
  | _ => simp at hm

end

variable {d : Decision} {ds : List Decision}

theorem SwitchInv.save (h : s.SwitchInv) (hs : s.pc = .publish (d :: ds)) (ht : t.pc = .store d ds)
    (he : t.strategies = s.strategies.saveOld d) (hp : t.prevCredit = s.prevCredit)
    (hm : t.made = s.made) : t.SwitchInv := by
  obtain ⟨hnd, h0, hf⟩ := h.publish _ hs
  obtain ⟨hsave, hd⟩ := hf d mem_cons_self
  have hc : t.strategies.credit = s.strategies.credit := by
    rw [he, Strategies.saveOld, if_pos hsave]
  have ho : t.strategies.old =
      update s.strategies.old d.idx (s.strategies.credit d.idx) := by
    rw [he, Strategies.saveOld, if_pos hsave]
  constructor
  · intro c hne
    rw [hc, hp] at hne
    have hcd : c ≠ d.idx := by
      intro hcd
      rw [hcd] at hne
      exact hne hd
    rw [ho, update_of_ne hcd, hp, hm]
    exact h.saved c hne
  · intro ds' hp'
    rw [ht] at hp'
    cases hp'
  · intro d' ds' hs'
    rw [ht] at hs'
    cases hs'
    constructor
    · unfold Fresh
      rw [hc, hp, hm]
      exact ⟨hnd, h0, hf⟩
    · rw [ho, update_self, hp, hd]

theorem SwitchInv.stored (h : s.SwitchInv) (hs : s.pc = .store d ds) (ht : t.pc = .publish ds)
    (he : t.strategies = s.strategies.store d) (hp : t.prevCredit = s.prevCredit)
    (hm : t.made = s.made) : t.SwitchInv := by
  obtain ⟨⟨hnd, h0, hf⟩, hold⟩ := h.store _ _ hs
  have hc : t.strategies.credit = update s.strategies.credit d.idx d.credit := by
    rw [he, Strategies.store]
  have ho : t.strategies.old = s.strategies.old := by
    rw [he, Strategies.store]
  rw [map_cons, nodup_cons] at hnd
  constructor
  · intro c hne
    rw [ho, hp, hm]
    by_cases hcd : c = d.idx
    · rw [hcd]
      exact ⟨hold, h0⟩
    · rw [hc, hp, update_of_ne hcd] at hne
      exact h.saved c hne
  · intro ds' hp'
    rw [ht] at hp'
    cases hp'
    unfold Fresh
    rw [hc, hp, hm]
    refine ⟨hnd.2, h0, ?_⟩
    intro d' hd'
    have hne : d'.idx ≠ d.idx := by
      intro heq
      apply hnd.1
      rw [← heq]
      exact mem_map_of_mem hd'
    rw [update_of_ne hne]
    exact hf d' (mem_cons_of_mem d hd')
  · intro d' ds' hs'
    rw [ht] at hs'
    cases hs'

/-- Without PCIe atomics a phase stores each credit at most once, and saves the one before. -/
theorem SwitchInv.next (hag : cfg.agentEnabled = true) (hpa : cfg.paEnabled = false)
    (h1 : cfg.threshold ≠ rnicThreshold) (h0 : cfg.threshold ≠ 0) (h : s.SwitchInv)
    (hn : (agents Q cfg).next s a = some t) : t.SwitchInv := by
  by_cases hm : s.Makes cfg a
  · rw [next_of_makes hn hm]
    constructor
    · intro c hne
      exact absurd rfl hne
    · intro ds hds
      have hds : (makePlan Q cfg s.tally).decisions = ds := ServerPc.publish.inj hds
      rw [← hds, makePlan_decisions Q s.tally hag hpa h1 h0]
      refine ⟨skewedDecisions_nodup Q cfg s.tally, Nat.succ_pos _, ?_⟩
      intro d hd
      exact ⟨skewedDecisions_saveOld hpa hd, rfl⟩
    · intro d ds hds
      cases hds
  · obtain ⟨hp, hmade, hst⟩ := next_stores hn hm
    cases hst with
    | save d ds hs ht he => exact h.save hs ht he hp hmade
    | store d ds hs ht he => exact h.stored hs ht he hp hmade
    | keep he hpub hsto =>
      constructor
      · rw [he, hp, hmade]
        exact h.saved
      · intro ds hds
        unfold Fresh
        rw [he, hp, hmade]
        exact h.publish ds (hpub ds hds)
      · intro d ds hds
        unfold Fresh
        rw [he, hp, hmade]
        exact h.store d ds (hsto d ds hds)

theorem Inv.made_le_acked (h : s.Inv cfg) (h0 : 0 < s.made)
    (hc : s.consensus ≠ s.startConsensus) (ht : s.consensus.toNat % cfg.nrMachine = 0)
    (hi : i < cfg.nrMachine) : s.made ≤ (s.machines i).hist.acked := by
  have hb := h.acked_bounds hi
  have hmade := h.made
  cases hm : s.pc.made with
  | false =>
    rw [hm] at hmade
    simp only [Bool.toNat_false] at hmade
    omega
  | true =>
    rw [hm] at hmade
    simp only [Bool.toNat_true] at hmade
    obtain ⟨k, hk, ha⟩ := h.exists_acked
    have hno := h.noWrap
    have hstart := h.start h0
    rw [hmade, Nat.add_sub_cancel] at hstart
    rw [hstart, h.consensus, Ne, eq_comm] at hc
    rw [h.consensus] at ht
    rw [ha] at hc ht hno
    rw [Wrap.changed_iff hk hno] at hc
    rw [Wrap.turn_iff (by omega) hk hno] at ht
    rw [ht] at ha
    rw [h.acked_of_sum ha hi, hmade]

theorem Inv.agreed (h : s.Inv cfg) (h0 : 0 < s.made) (hi : i < cfg.nrMachine)
    (ha : s.made ≤ (s.machines i).hist.acked) : s.Agreed cfg i := by
  have hm := h.machine i hi
  have hc := hm.counts
  have hr : (s.machines i).hist.received ≤ s.made := by
    have hmade := h.made
    rcases h.stage_cases hi with ⟨hf, -, hr, -⟩ | ⟨j, hpc, -, hr, -⟩ | ⟨⟨hr, -⟩, -⟩ | ⟨hp, hr, -⟩
    · omega
    · omega
    · omega
    · rw [(ServerPc.made_of_posting hp).1] at hmade
      simp only [Bool.toNat_true] at hmade
      omega
  refine ⟨?_, by omega, by omega⟩
  intro c hcg
  rw [hm.credit (by omega) (by omega) c hcg, h.payload i hi h0 (by omega)]

end State
end Fusa.Agent

import Fusa.Lib.Transition
import Fusa.Driver.Recorder
import Fusa.Agent.Tally

/-! `Agent::collect` while the drivers of several processes count atomics and create queue
pairs. -/
namespace Fusa.Agent
open Transition Function Option Nat Finset

def counterPerMesg : ℕ := 7

/-- The counters of `mesg_arr`: unit, then position in it. -/
abbrev Mesg := ℕ → ℕ → UInt64

namespace Mesg

def entry (m : Mesg) (j : ℕ) : UInt64 := m (j / counterPerMesg) (j % counterPerMesg)

def setEntry (m : Mesg) (j : ℕ) (v : UInt64) : Mesg :=
  update m (j / counterPerMesg)
    (update (m (j / counterPerMesg)) (j % counterPerMesg) v)

theorem entry_setEntry (m : Mesg) (i j : ℕ) (v : UInt64) :
    (m.setEntry i v).entry j = if j = i then v else m.entry j := by
  unfold entry setEntry
  by_cases hu : j / counterPerMesg = i / counterPerMesg
  · by_cases hc : j % counterPerMesg = i % counterPerMesg
    · have hij : j = i := by rw [← div_add_mod j counterPerMesg, hu, hc, div_add_mod]
      simp [hij]
    · have hij : j ≠ i := fun h => hc (h ▸ rfl)
      simp [hu, hc, hij]
  · have hij : j ≠ i := fun h => hu (h ▸ rfl)
    simp [hu, hij]

end Mesg

namespace Collect

/-- `counters` and `mesg_arr`, or `c_counters` and `c_mesg_arr`. -/
inductive Kind
  | rnic
  | cpu
deriving DecidableEq

/-- The local variables of the loops: the recorder, those handled before it, and the entry. -/
structure At where
  i : ℕ
  recorderCnt : ℕ
  j : ℕ
deriving DecidableEq

inductive Pc
  | idle
  | visit (i recorderCnt : ℕ)
  | load (k : Kind) (l : At)
  | store (k : Kind) (l : At)
  | sub (k : Kind) (l : At)
deriving DecidableEq

/-- The shared region, the processes, the messages and `collect`; the last four are history. -/
structure State where
  mapped : ℕ → Bool
  qpn : ℕ → ℕ
  counters : Kind → ℕ → ℕ → UInt64
  mesg : Kind → Mesg
  incre : Kind → UInt64
  pc : Pc
  begun : Bool
  counted : Bool
  reported : Kind → ℕ → UInt64
  made : Kind → ℕ → ℕ

/-- The first queue pair of a process maps and clears the region; each is given a recorder. -/
inductive Event
  | map (p : ℕ)
  | create (p qpn : ℕ)
  | count (k : Kind) (r j : ℕ)
  | agent

def fetchAdd (c : Kind → ℕ → ℕ → UInt64) (k : Kind) (r j : ℕ) (d : UInt64) :
    Kind → ℕ → ℕ → UInt64 :=
  fun k' r' j' => if k' = k ∧ r' = r ∧ j' = j then c k' r' j' + d else c k' r' j'

namespace State

def agentStep (s : State) : State :=
  match s.pc with
  | .idle => { s with pc := .visit 0 0, begun := true }
  | .visit i recorderCnt =>
    if i < maxRecorderNum then
      if s.qpn i ≠ 0 then { s with pc := .load .rnic ⟨i, recorderCnt, 0⟩ }
      else { s with pc := .visit (i + 1) recorderCnt }
    else { s with
      pc := .idle
      reported := fun k j => s.reported k j + (s.mesg k).entry j }
  | .load k l => { s with
      incre := update s.incre k (s.counters k l.i l.j)
      pc := if k = .rnic then .load .cpu l else .store .rnic l }
  | .store k l => { s with
      -- the first recorder overwrites what the call before left
      mesg := update s.mesg k ((s.mesg k).setEntry l.j
        (if l.recorderCnt = 0 then s.incre k else (s.mesg k).entry l.j + s.incre k))
      pc := if k = .rnic then .store .cpu l else .sub .rnic l }
  | .sub k l => { s with
      counters := fetchAdd s.counters k l.i l.j (0 - s.incre k)
      pc :=
        if k = .rnic then .sub .cpu l
        else if l.j + 1 < groupSize then .load .rnic ⟨l.i, l.recorderCnt, l.j + 1⟩
        else .visit (l.i + 1) (l.recorderCnt + 1) }

def countStep (s : State) (k : Kind) (r j : ℕ) : State :=
  { s with
    counters := fetchAdd s.counters k r j 1
    counted := true
    made := fun k' j' => if k' = k ∧ j' = j then s.made k' j' + 1 else s.made k' j' }

def next (s : State) : Event → Option State
  | .map p =>
    if s.mapped p then none
    else some { s with
      mapped := update s.mapped p true, qpn := fun _ => 0, counters := fun _ _ _ => 0 }
  | .create p qpn =>
    if s.mapped p = true ∧ qpn ≠ 0 then
      (Driver.Recorder.mlx5CreateQp s.qpn qpn).map fun x => { s with qpn := x.2 }
    else none
  | .count k r j =>
    if r < maxRecorderNum ∧ j < groupSize ∧ s.qpn r ≠ 0 then some (s.countStep k r j) else none
  | .agent => some s.agentStep

end State

def system : System State Event where
  start s := s.mapped = (fun _ => false) ∧ s.qpn = (fun _ => 0) ∧ s.counters = (fun _ _ _ => 0) ∧
    s.pc = .idle ∧ s.begun = false ∧ s.counted = false ∧ s.reported = (fun _ _ => 0) ∧
    s.made = fun _ _ => 0
  next := State.next

/-- Each process maps the region before anything is counted, and has a recorder to collect. -/
def Orderly (s : State) : Event → Prop
  | .map _ => s.begun = false ∧ s.counted = false
  | .agent => s.begun = false → ∃ r < maxRecorderNum, s.qpn r ≠ 0
  | _ => True

/-- The collect under way has stored its counts for entry `j` of the message. -/
def Pc.fresh (k : Kind) (j : ℕ) : Pc → Bool
  | .idle => false
  | .visit _ recorderCnt => recorderCnt ≠ 0
  | .load _ l => l.recorderCnt ≠ 0 ∨ j < l.j
  | .store k' l => l.recorderCnt ≠ 0 ∨ j < l.j ∨ j = l.j ∧ k = .rnic ∧ k' = .cpu
  | .sub _ l => l.recorderCnt ≠ 0 ∨ j ≤ l.j

/-- `incre` is stored in the message and not yet taken from the counter. -/
def Pc.owed (k : Kind) (j : ℕ) : Pc → Bool
  | .store k' l => j = l.j ∧ k = .rnic ∧ k' = .cpu
  | .sub k' l => j = l.j ∧ ¬ (k = .rnic ∧ k' = .cpu)
  | _ => false

/-- Where the loops stand. A collect that has not met a recorder yet will meet one. -/
def Pc.Placed (qpn : ℕ → ℕ) : Pc → Prop
  | .idle => True
  | .visit i recorderCnt => recorderCnt ≠ 0 ∨ ∃ r, i ≤ r ∧ r < maxRecorderNum ∧ qpn r ≠ 0
  | .load _ l => l.i < maxRecorderNum ∧ l.j < groupSize
  | .store _ l => l.i < maxRecorderNum ∧ l.j < groupSize
  | .sub _ l => l.i < maxRecorderNum ∧ l.j < groupSize

namespace State

/-- What the collect under way has taken out of the counters. -/
def underWay (s : State) (k : Kind) (j : ℕ) : UInt64 :=
  if s.pc.fresh k j then (s.mesg k).entry j - (if s.pc.owed k j then s.incre k else 0) else 0

def held (s : State) (k : Kind) (j : ℕ) : UInt64 :=
  ∑ r ∈ Finset.range maxRecorderNum, s.counters k r j

structure Inv (s : State) : Prop where
  total : ∀ k, ∀ j < groupSize,
    s.reported k j + s.underWay k j + s.held k j = UInt64.ofNat (s.made k j)
  placed : s.pc.Placed s.qpn
  begun : s.pc ≠ .idle → s.begun = true
  recorder : s.begun = true → ∃ r < maxRecorderNum, s.qpn r ≠ 0
  zero : s.begun = false → s.counted = false → s.counters = fun _ _ _ => 0

end State

variable {r j : ℕ} {k k' : Kind} {l : At}

theorem sum_fetchAdd (c : Kind → ℕ → ℕ → UInt64) (k : Kind) (j : ℕ) (d : UInt64)
    (hr : r < maxRecorderNum) (k' : Kind) (j' : ℕ) :
    ∑ r' ∈ Finset.range maxRecorderNum, fetchAdd c k r j d k' r' j' =
      (∑ r' ∈ Finset.range maxRecorderNum, c k' r' j') + if k' = k ∧ j' = j then d else 0 := by
  unfold fetchAdd
  by_cases h : k' = k ∧ j' = j
  · obtain ⟨rfl, rfl⟩ := h
    have hsum : ∀ r', (if k' = k' ∧ r' = r ∧ j' = j' then c k' r' j' + d else c k' r' j') =
        c k' r' j' + if r' = r then d else 0 := by
      intro r'
      by_cases hr' : r' = r
      · simp [hr']
      · simp [hr']
    rw [if_pos ⟨rfl, rfl⟩, sum_congr rfl fun r' _ => hsum r', sum_add_distrib,
      sum_ite_eq', if_pos (mem_range.mpr hr)]
  · rw [if_neg h, add_zero]
    apply sum_congr rfl
    intro r' _
    rw [if_neg]
    rintro ⟨hk, -, hj⟩
    exact h ⟨hk, hj⟩

theorem Pc.fresh_store (h : ¬ (k = k' ∧ j = l.j)) :
    (if k' = .rnic then store .cpu l else .sub .rnic l).fresh k j = (store k' l).fresh k j ∧
      (if k' = .rnic then store .cpu l else .sub .rnic l).owed k j = (store k' l).owed k j := by
  cases k' with
  | rnic => cases k <;> simp_all [fresh, owed]
  | cpu =>
    cases k with
    | rnic =>
      have hle : j ≤ l.j ↔ j < l.j ∨ j = l.j := le_iff_lt_or_eq
      simp [fresh, owed, hle]
    | cpu =>
      have hle : j ≤ l.j ↔ j < l.j := by
        have : j ≠ l.j := fun hj => h ⟨rfl, hj⟩
        omega
      simp_all [fresh, owed]

theorem Pc.fresh_sub (hj : j < groupSize) : (if k' = .rnic then sub .cpu l
      else if l.j + 1 < groupSize then .load .rnic ⟨l.i, l.recorderCnt, l.j + 1⟩
      else .visit (l.i + 1) (l.recorderCnt + 1)).fresh k j = (sub k' l).fresh k j := by
  cases k' with
  | rnic => simp [fresh]
  | cpu =>
    by_cases hl : l.j + 1 < groupSize
    · simp [fresh, hl]
    · have hle : j ≤ l.j := by omega
      simp [fresh, hl, hle]

theorem Pc.owed_sub : (if k' = .rnic then sub .cpu l
      else if l.j + 1 < groupSize then .load .rnic ⟨l.i, l.recorderCnt, l.j + 1⟩
      else .visit (l.i + 1) (l.recorderCnt + 1)).owed k j =
        ((sub k' l).owed k j && !(k = k' ∧ j = l.j : Bool)) := by
  cases k' with
  | rnic => cases k <;> simp [owed]
  | cpu =>
    by_cases hl : l.j + 1 < groupSize <;> cases k <;> simp [owed, hl]

namespace State
variable {s : State}

theorem underWay_store (hpc : s.pc = .store k' l) (k : Kind) (j : ℕ) :
    s.agentStep.underWay k j = s.underWay k j := by
  unfold agentStep underWay
  simp only [hpc]
  by_cases hkj : k = k' ∧ j = l.j
  · obtain ⟨rfl, rfl⟩ := hkj
    rw [update_self, Mesg.entry_setEntry, if_pos rfl]
    by_cases hc : l.recorderCnt = 0 <;> cases k <;> simp [Pc.fresh, Pc.owed, hc]
  · have hm : (update s.mesg k' ((s.mesg k').setEntry l.j
        (if l.recorderCnt = 0 then s.incre k' else (s.mesg k').entry l.j + s.incre k')) k).entry j =
        (s.mesg k).entry j := by
      by_cases hk : k = k'
      · subst hk
        rw [update_self, Mesg.entry_setEntry, if_neg fun h => hkj ⟨rfl, h⟩]
      · rw [update_of_ne hk]
    rw [hm, (Pc.fresh_store hkj).1, (Pc.fresh_store hkj).2]

theorem total_sub (hpc : s.pc = .sub k' l) (hi : l.i < maxRecorderNum) (k : Kind)
    (hj : j < groupSize) :
    s.agentStep.underWay k j + s.agentStep.held k j = s.underWay k j + s.held k j := by
  unfold agentStep underWay held
  simp only [hpc]
  rw [sum_fetchAdd _ _ _ _ hi, Pc.fresh_sub hj, Pc.owed_sub]
  by_cases hkj : k = k' ∧ j = l.j
  · obtain ⟨rfl, rfl⟩ := hkj
    have hf : (Pc.sub k l).fresh k l.j = true := by simp [Pc.fresh]
    have ho : (Pc.sub k l).owed k l.j = true := by cases k <;> simp [Pc.owed]
    simp only [hf, ho, if_true, and_self, decide_true, Bool.not_true, Bool.and_false,
      Bool.false_eq_true, if_false]
    rw [sub_zero, zero_sub, add_comm (Finset.sum _ _), ← add_assoc, ← sub_eq_add_neg]
  · simp [hkj]

theorem total_agentStep (h : s.Inv) (k : Kind) (hj : j < groupSize) :
    s.agentStep.reported k j + s.agentStep.underWay k j + s.agentStep.held k j =
      s.reported k j + s.underWay k j + s.held k j := by
  have hp := h.placed
  cases hpc : s.pc with
  | idle => simp [agentStep, underWay, held, hpc, Pc.fresh]
  | visit i recorderCnt =>
    rw [hpc] at hp
    simp only [agentStep, hpc]
    split_ifs with hi hq
    iterate 2 · simp [underWay, held, hpc, Pc.fresh, Pc.owed]
    · have hc : recorderCnt ≠ 0 := hp.resolve_right fun ⟨r, hir, hr, _⟩ => hi (by omega)
      simp [underWay, held, hpc, Pc.fresh, Pc.owed, hc]
  | load k' l =>
    cases k' <;> simp [agentStep, underWay, held, hpc, Pc.fresh, Pc.owed]
  | store k' l =>
    rw [underWay_store hpc]
    simp [agentStep, hpc, held]
  | sub k' l =>
    rw [hpc] at hp
    rw [add_assoc, total_sub hpc hp.1 k hj, ← add_assoc]
    simp [agentStep, hpc]

theorem placed_agentStep (h : s.Inv) (hr : ∃ r < maxRecorderNum, s.qpn r ≠ 0) :
    s.agentStep.pc.Placed s.qpn := by
  have hp := h.placed
  unfold agentStep
  generalize s.pc = pc at hp
  cases pc with
  | idle =>
    obtain ⟨r, hr, hq⟩ := hr
    exact .inr ⟨r, zero_le _, hr, hq⟩
  | visit i recorderCnt =>
    dsimp only
    split_ifs with hi hq
    · exact ⟨hi, lt_of_lt_of_eq (by decide : 0 < 8192) rfl⟩
    · refine hp.imp_right fun ⟨r, hir, hr, hqr⟩ => ⟨r, ?_, hr, hqr⟩
      exact lt_of_le_of_ne hir fun he => hq (he ▸ hqr)
    · trivial
  | load k l | store k l => cases k <;> exact hp
  | sub k l =>
    cases k with
    | rnic => exact hp
    | cpu =>
      by_cases hl : l.j + 1 < groupSize
      · simpa [hl, Pc.Placed] using hp.1
      · simp [hl, Pc.Placed]

theorem agentStep_frame : s.agentStep.qpn = s.qpn ∧ s.agentStep.made = s.made ∧
    s.agentStep.counted = s.counted ∧ s.agentStep.begun = (s.begun || s.pc = .idle) := by
  unfold agentStep
  cases hpc : s.pc with
  | idle => simp
  | visit i recorderCnt =>
    simp only
    split
    · split <;> simp
    · simp
  | load | store | sub => simp

theorem Inv.agent (h : s.Inv) (hc : s.begun = false → ∃ r < maxRecorderNum, s.qpn r ≠ 0) :
    s.agentStep.Inv := by
  obtain ⟨hq, hm, -, hb⟩ := s.agentStep_frame
  have hr : ∃ r < maxRecorderNum, s.qpn r ≠ 0 := by
    cases hbegun : s.begun with
    | false => exact hc hbegun
    | true => exact h.recorder hbegun
  have hbegun : s.agentStep.begun = true := by
    rw [hb]
    by_cases hpc : s.pc = .idle
    · simp [hpc]
    · simp [h.begun hpc]
  constructor
  · intro k j hj
    rw [total_agentStep h k hj, hm]
    exact h.total k j hj
  · rw [hq]
    exact placed_agentStep h hr
  · intro _
    exact hbegun
  · intro _
    rwa [hq]
  · intro hf
    rw [hbegun] at hf
    cases hf

theorem Inv.map (h : s.Inv) (hb : s.begun = false) (hc : s.counted = false) (mapped : ℕ → Bool) :
    ({ s with mapped, qpn := fun _ => 0, counters := fun _ _ _ => 0 } : State).Inv := by
  have hpc : s.pc = .idle := by
    by_contra hpc
    rw [h.begun hpc] at hb
    cases hb
  constructor
  · intro k j hj
    have ht := h.total k j hj
    unfold held at ht ⊢
    rwa [h.zero hb hc] at ht
  · simp only [hpc]
    trivial
  · exact h.begun
  · intro hf
    rw [hb] at hf
    cases hf
  · intro _ _
    rfl

theorem Inv.create (h : s.Inv) {qpn : ℕ → ℕ} (hq : ∀ r, s.qpn r ≠ 0 → qpn r ≠ 0) :
    ({ s with qpn } : State).Inv := by
  refine ⟨h.total, ?_, h.begun, ?_, h.zero⟩
  · have hp := h.placed
    generalize s.pc = pc at hp
    cases pc with
    | visit i recorderCnt => exact hp.imp_right fun ⟨r, hir, hr, hqr⟩ => ⟨r, hir, hr, hq r hqr⟩
    | idle | load | store | sub => exact hp
  · intro hb
    obtain ⟨r, hr, hqr⟩ := h.recorder hb
    exact ⟨r, hr, hq r hqr⟩

theorem Inv.count (h : s.Inv) (k : Kind) (hr : r < maxRecorderNum) (j : ℕ) :
    (s.countStep k r j).Inv := by
  refine ⟨fun k' j' hj' => ?_, h.placed, h.begun, h.recorder, fun _ hf => by cases hf⟩
  have ht := h.total k' j' hj'
  have hu : (s.countStep k r j).underWay k' j' = s.underWay k' j' := rfl
  have hh : (s.countStep k r j).held k' j' =
      s.held k' j' + if k' = k ∧ j' = j then 1 else 0 := sum_fetchAdd _ _ _ _ hr _ _
  have hm : (s.countStep k r j).made k' j' =
      if k' = k ∧ j' = j then s.made k' j' + 1 else s.made k' j' := rfl
  rw [hu, hh, hm, ← add_assoc]
  have hr : (s.countStep k r j).reported = s.reported := rfl
  rw [hr, ht]
  by_cases hkj : k' = k ∧ j' = j
  · rw [if_pos hkj, if_pos hkj, UInt64.ofNat_add]
    rfl
  · rw [if_neg hkj, if_neg hkj, add_zero]

end State

theorem inv_of_runWith {s : State} (h : system.RunWith Orderly s) : s.Inv := by
  apply h.invariant
  · rintro s ⟨-, hq, hc, hpc, hb, -, hr, hm⟩
    constructor
    · intro k j _
      simp [State.underWay, State.held, hr, hpc, hc, hm, Pc.fresh]
    · rw [hpc]
      trivial
    · intro hne
      exact absurd hpc hne
    · intro hf
      rw [hb] at hf
      cases hf
    · intro _ _
      exact hc
  · intro s e t hi hcond hn
    cases e with
    | map p =>
      obtain ⟨-, ⟨⟩⟩ := ite_none_left_eq_some.mp hn
      exact hi.map hcond.1 hcond.2 _
    | create p qpn =>
      simp only [system, State.next, ite_none_right_eq_some, map_eq_some_iff] at hn
      obtain ⟨⟨-, hqpn⟩, ⟨idx, records⟩, hx, rfl⟩ := hn
      apply hi.create
      intro r hr
      obtain ⟨i, -, hi'⟩ := map_eq_some_iff.mp hx
      cases hi'
      change update s.qpn idx qpn r ≠ 0
      by_cases hri : r = idx
      · rwa [hri, update_self]
      · rwa [update_of_ne hri]
    | count k r j =>
      simp only [system, State.next, ite_none_right_eq_some, Option.some.injEq] at hn
      obtain ⟨⟨hr, -, -⟩, rfl⟩ := hn
      exact hi.count k hr j
    | agent =>
      cases hn
      exact hi.agent hcond

/-- Every increment is found once: in the reports, in the collect under way, or in the counters. -/
theorem conserved_of_orderly {s : State} (h : system.RunWith Orderly s) (k : Kind) {j : ℕ}
    (hj : j < groupSize) :
    s.reported k j + s.underWay k j + s.held k j = UInt64.ofNat (s.made k j) ∧
      (s.pc = .idle → s.reported k j + s.held k j = UInt64.ofNat (s.made k j)) := by
  have ht := (inv_of_runWith h).total k j hj
  refine ⟨ht, fun hpc => ?_⟩
  have hu : s.underWay k j = 0 := by simp [State.underWay, hpc, Pc.fresh]
  rw [hu, add_zero] at ht
  exact ht

def State.boot : State where
  mapped := fun _ => false
  qpn := fun _ => 0
  counters := fun _ _ _ => 0
  mesg := fun _ _ _ => 0
  incre := fun _ => 0
  pc := .idle
  begun := false
  counted := false
  reported := fun _ _ => 0
  made := fun _ _ => 0

instance (s : State) (e : Event) : Decidable (Orderly s e) := by
  cases e <;> unfold Orderly <;> infer_instance

/-- One queue pair counts two atomics, the second after the collect has read the counter. -/
def lateCount : List Event :=
  .map 0 :: .create 0 7 :: .count .rnic 7 0 ::
    (List.replicate 10 Event.agent).append (.count .rnic 7 0 :: List.replicate 5 Event.agent)

theorem conserved_lateCount : ∃ s, system.exec .boot lateCount = some s ∧
    s.underWay .rnic 0 = 1 ∧ s.held .rnic 0 = 1 ∧
      s.reported .rnic 0 + s.underWay .rnic 0 + s.held .rnic 0 = 2 := by
  obtain ⟨s, hs, hrun, hu, hh, hm⟩ := system.exists_runWith Orderly (s := .boot)
    (fun s => s.underWay .rnic 0 = 1 ∧ s.held .rnic 0 = 1 ∧ s.made .rnic 0 = 2)
    ⟨rfl, rfl, rfl, rfl, rfl, rfl, rfl, rfl⟩ lateCount (by decide +kernel) (by decide +kernel)
  have h := (conserved_of_orderly hrun .rnic (j := 0) (by decide)).1
  rw [hm] at h
  exact ⟨s, hs, hu, hh, h⟩

/-- A second process creates its first queue pair after an atomic of the first was counted. -/
def lateProcess : List Event := [.map 0, .create 0 7, .count .rnic 7 0, .map 1, .create 1 8]

/-- The count is lost. -/
theorem not_conserved_lateProcess : ∃ s, system.Reachable s ∧
    (∃ r < maxRecorderNum, s.qpn r ≠ 0) ∧ s.pc = .idle ∧
      s.reported .rnic 0 + s.held .rnic 0 ≠ UInt64.ofNat (s.made .rnic 0) := by
  obtain ⟨s, -, hrun, hq, h⟩ := system.exists_reachable (s := .boot) (fun s => s.qpn 8 ≠ 0 ∧
    s.pc = .idle ∧ s.reported .rnic 0 + s.held .rnic 0 ≠ UInt64.ofNat (s.made .rnic 0))
    ⟨rfl, rfl, rfl, rfl, rfl, rfl, rfl, rfl⟩ lateProcess (by decide +kernel)
  exact ⟨s, hrun, ⟨8, by decide, hq⟩, h⟩

end Collect
end Fusa.Agent

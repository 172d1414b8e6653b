import Fusa.Agent.Phases
import Fusa.Agent.Turns

/-! The budget of a hot slot, `onload_nums`, over the loop over `cpu_tasks`. -/
namespace Fusa.Agent
open Function List Nat

/-- The task has more than nine tenths of the requests of the first sub-slot of its slot. -/
def CpuTask.most (t : Tally) (task : CpuTask) : Bool :=
  9 * (t.counters task.idx).toNat < 10 * task.reqCnt.toNat

/-- The test of `takesTask`, with the product by 0.9 as an exact one. -/
def takesExact (t : Tally) (onloadNums : ℕ → UInt64) (task : CpuTask) : Bool :=
  task.reqCnt < onloadNums task.idx || task.most t

def slotSum (p : Turn → Bool) (i : ℕ) (l : List Turn) : ℕ :=
  ((l.filter fun turn => p turn && turn.task.idx == i).map (·.task.reqCnt.toNat)).sum

/-- The budget of a slot is its excess over the average, and no subtraction wraps. -/
structure BudgetKept (Q : TaskQueue) (cfg : ServerConfig) (t : Tally) : Prop where
  initial : ∀ i < maxCounterNum, overThres cfg t ≤ t.realCounters i →
    t.reqPerSlot ≤ t.realCounters i
  later : ∀ turn ∈ phaseTurns Q cfg (takesExact t) t, turn.taken = true →
    turn.task.reqCnt ≤ turn.onloadNum
  moved : ∀ i < maxCounterNum, overThres cfg t ≤ t.realCounters i →
    slotSum (·.taken) i (phaseTurns Q cfg (takesExact t) t) ≤
      (t.realCounters i).toNat - t.reqPerSlot.toNat

/-- The hot sub-slots reached that pass the second test are together within their slot's excess.
The loop comes to the larger half of them, with PA only until the capacity is used up. -/
def MostFits (Q : TaskQueue) (cfg : ServerConfig) (t : Tally) : Prop :=
  ∀ i < maxCounterNum, overThres cfg t ≤ t.realCounters i →
    slotSum (·.task.most t) i (phaseTurns Q cfg (takesExact t) t) ≤
      (t.realCounters i).toNat - t.reqPerSlot.toNat

theorem slotSum_cons (p : Turn → Bool) (i : ℕ) (task : CpuTask) (num : UInt64) (taken : Bool)
    (l : List Turn) : slotSum p i (⟨task, num, taken⟩ :: l) =
      (if p ⟨task, num, taken⟩ = true ∧ task.idx = i then task.reqCnt.toNat else 0) +
        slotSum p i l := by
  unfold slotSum
  by_cases h : p ⟨task, num, taken⟩ = true ∧ task.idx = i
  · rw [filter_cons_of_pos (by simpa using h), map_cons, sum_cons, if_pos h]
  · rw [filter_cons_of_neg (by simpa using h), if_neg h, zero_add]

variable {p : Turn → Bool} {i : ℕ} {l : List Turn}

theorem slotSum_eq_zero (h : ∀ turn ∈ l, turn.task.idx = i → p turn = false) :
    slotSum p i l = 0 := by
  induction l with
  | nil => rfl
  | cons turn l ih =>
    rw [slotSum_cons, ih fun x hx => h x (.tail _ hx), if_neg]
    rintro ⟨hp, hi⟩
    rw [h turn (.head _) hi] at hp
    cases hp

theorem slotSum_le {q : Turn → Bool} (h : ∀ turn ∈ l, p turn = true → q turn = true) :
    slotSum p i l ≤ slotSum q i l := by
  induction l with
  | nil => exact le_refl _
  | cons turn l ih =>
    have hl := ih fun x hx => h x (.tail _ hx)
    rw [slotSum_cons, slotSum_cons]
    by_cases hp : p turn = true ∧ turn.task.idx = i
    · rw [if_pos hp, if_pos ⟨h turn (.head _) hp.1, hp.2⟩]
      omega
    · rw [if_neg hp]
      omega

theorem CpuTask.most_mono {t : Tally} {a b : CpuTask} (hidx : a.idx = b.idx)
    (hle : a.reqCnt.toNat ≤ b.reqCnt.toNat) (h : a.most t = true) : b.most t = true := by
  unfold CpuTask.most at h ⊢
  rw [decide_eq_true_eq] at h ⊢
  rw [← hidx]
  omega

namespace Trace
variable {Q : TaskQueue} {cap : UInt64} {t : Tally} {tasks : List CpuTask} {onloadNums : ℕ → UInt64}
  {attempts : UInt64}

section
variable (h : Trace Q cap (takesExact t) t i tasks onloadNums attempts l)
include h

theorem taken_of_most : ∀ turn ∈ l, turn.task.most t = true → turn.taken = true := by
  induction h with
  | stop => simp
  | skip _ _ _ ht _ ih =>
    intro turn hturn hm
    rcases mem_cons.mp hturn with rfl | hturn
    · simp [takesExact, hm] at ht
    · exact ih turn hturn hm
  | take _ _ _ _ _ ih =>
    intro turn hturn hm
    rcases mem_cons.mp hturn with rfl | hturn
    · rfl
    · exact ih turn hturn hm

/-- The tasks that `most` selects come first in a slot; if they fit, so do the later ones. -/
theorem budget (hfit : ∀ k, slotSum (·.task.most t) k l ≤ (onloadNums k).toNat) :
    (∀ turn ∈ l, turn.taken = true → turn.task.reqCnt ≤ turn.onloadNum) ∧
      ∀ k, slotSum (·.taken) k l ≤ (onloadNums k).toNat := by
  induction h with
  | stop => exact ⟨by simp, fun k => zero_le _⟩
  | @skip i tasks rest onloadNums attempts task l _ _ hpop ht _ ih =>
    have hm : task.most t = false := by
      cases hc : task.most t with
      | false => rfl
      | true => simp [takesExact, hc] at ht
    obtain ⟨hlater, hmoved⟩ := ih fun k => by
      have hk := hfit k
      rwa [slotSum_cons, if_neg (by simp [hm]), zero_add] at hk
    refine ⟨fun turn hturn htaken => ?_, fun k => ?_⟩
    · rcases mem_cons.mp hturn with rfl | hturn
      · cases htaken
      · exact hlater turn hturn htaken
    · rw [slotSum_cons, if_neg (by simp), zero_add]
      exact hmoved k
  | @take i tasks rest onloadNums attempts task l _ _ hpop ht hl ih =>
    have hfirst := hfit task.idx
    rw [slotSum_cons] at hfirst
    have hle : task.reqCnt.toNat ≤ (onloadNums task.idx).toNat := by
      by_cases hlt : task.reqCnt < onloadNums task.idx
      · exact UInt64.le_of_lt hlt
      · have hm : task.most t = true := by simpa [takesExact, hlt] using ht
        rw [if_pos ⟨hm, rfl⟩] at hfirst
        omega
    have hsub : (onloadNums task.idx - task.reqCnt).toNat =
        (onloadNums task.idx).toNat - task.reqCnt.toNat := UInt64.toNat_sub_of_le _ _ hle
    obtain ⟨hlater, hmoved⟩ := ih fun k => by
      have hk := hfit k
      rw [slotSum_cons] at hk
      by_cases hki : k = task.idx
      · subst hki
        rw [update_self, hsub]
        cases hm : task.most t with
        | true =>
          rw [if_pos ⟨hm, rfl⟩] at hk
          omega
        | false =>
          -- the tasks still to come in this slot are not larger
          rw [slotSum_eq_zero]
          · exact zero_le _
          · intro turn hturn hidx
            have hreq : turn.task.reqCnt.toNat ≤ task.reqCnt.toNat :=
              Q.le_pop hpop _ ((Q.perm_pop hpop).subset (.tail _ (hl.mem_tasks hturn)))
            by_contra hc
            have := CpuTask.most_mono hidx hreq (Bool.not_eq_false _ ▸ hc)
            rw [hm] at this
            cases this
      · rw [update_of_ne hki]
        omega
    refine ⟨fun turn hturn htaken => ?_, fun k => ?_⟩
    · rcases mem_cons.mp hturn with rfl | hturn
      · exact hle
      · exact hlater turn hturn htaken
    · have hk := hmoved k
      rw [slotSum_cons]
      by_cases hki : k = task.idx
      · subst hki
        rw [update_self, hsub] at hk
        rw [if_pos ⟨rfl, rfl⟩]
        omega
      · rw [update_of_ne hki] at hk
        rwa [if_neg fun hc => hki hc.2.symm, zero_add]

end

end Trace

section
variable (Q : TaskQueue) (cfg : ServerConfig) (t : Tally)

theorem reqPerSlot_le_overThres : t.reqPerSlot ≤ overThres cfg t := by
  have hhalf : cfg.threshold / 2 ≤ cfg.threshold := by
    rw [UInt64.le_iff_toNat_le, UInt64.toNat_div]
    exact div_le_self _ _
  unfold overThres
  by_cases h : t.reqPerSlot > if cfg.paEnabled then cfg.threshold / 2 else cfg.threshold
  · rw [if_pos h]
    exact UInt64.le_refl _
  · rw [if_neg h]
    have h := UInt64.not_lt.mp h
    cases hpa : cfg.paEnabled with
    | false => simpa [hpa] using h
    | true => exact UInt64.le_trans (by simpa [hpa] using h) hhalf

theorem excess_toNat (h : overThres cfg t ≤ t.realCounters i) :
    (excess t i).toNat = (t.realCounters i).toNat - t.reqPerSlot.toNat :=
  UInt64.toNat_sub_of_le _ _ (UInt64.le_trans (reqPerSlot_le_overThres cfg t) h)

/-- The first budget never wraps; a later one does where sub-slots pass the second test too far. -/
theorem budgetKept_iff : BudgetKept Q cfg t ↔ MostFits Q cfg t := by
  have htrace := trace_phaseTurns Q cfg (takesExact t) t
  constructor
  · intro h i hi hhot
    exact (slotSum_le htrace.taken_of_most).trans (h.moved i hi hhot)
  · intro h
    have hfit : ∀ k, slotSum (·.task.most t) k (phaseTurns Q cfg (takesExact t) t) ≤
        (excess t k).toNat := by
      intro k
      by_cases hk : k < maxCounterNum ∧ overThres cfg t ≤ t.realCounters k
      · rw [excess_toNat cfg t hk.2]
        exact h k hk.1 hk.2
      · rw [slotSum_eq_zero]
        · exact zero_le _
        · intro turn hturn hidx
          obtain ⟨hi, hhot, -⟩ := mem_cpuTasks (htrace.mem_tasks hturn)
          rw [hidx] at hi hhot
          exact absurd ⟨hi, hhot⟩ hk
    obtain ⟨hlater, hmoved⟩ := htrace.budget hfit
    refine ⟨fun i _ hhot => UInt64.le_trans (reqPerSlot_le_overThres cfg t) hhot, hlater, ?_⟩
    intro i _ hhot
    rw [← excess_toNat cfg t hhot]
    exact hmoved i

end

def oneHotTally : Tally where
  scannedCnt := 1
  tmpSlotReq := 0
  counters j := if j = 0 then 200000 else 0
  cCounters _ := 0
  realCounters i := if i = 0 then 200000 else 0
  realCCounters _ := 0
  ttRnicReq := 200000
  ttCpuReq := 0
  machine _ := ⟨true, 0, 0, 0⟩

/-- The one task has more than its slot has in excess, and passes the second test. -/
theorem not_budgetKept_oneHotTally : ¬ BudgetKept (MaxQueue.first _) twoMachines oneHotTally ∧
      ¬ BudgetKept (MaxQueue.first _) { twoMachines with paEnabled := true } oneHotTally := by
  constructor <;>
  · intro h
    have hm := h.moved 0 (by decide) (by decide +kernel)
    exact absurd hm (by decide +kernel)

end Fusa.Agent

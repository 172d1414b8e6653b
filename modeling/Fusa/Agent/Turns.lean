import Fusa.Agent.Strategy

/-! The turns of the loop over `cpu_tasks`, and how often it decides on a credit. -/
namespace Fusa.Agent
open List Option

def slotCredits (i : ℕ) : List ℕ := (List.range slotGranularity).map fun j => i + j * maxCounterNum

theorem mem_slotCredits {i c : ℕ} (hi : i < maxCounterNum) (h : c ∈ slotCredits i) :
    c % maxCounterNum = i := by
  obtain ⟨j, -, rfl⟩ := mem_map.mp h
  rw [Nat.add_mul_mod_self_right, Nat.mod_eq_of_lt hi]

theorem nodup_slotCredits (i : ℕ) : (slotCredits i).Nodup := by
  apply List.Nodup.map_on _ nodup_range
  intro a _ b _ hab
  unfold maxCounterNum at hab
  omega

theorem nodup_flatMap_slots {f : ℕ → List ℕ} (h : ∀ i, (f i).Sublist (slotCredits i)) :
    ((List.range maxCounterNum).flatMap f).Nodup := by
  rw [nodup_flatMap]
  constructor
  · intro i _
    exact (nodup_slotCredits i).sublist (h i)
  · apply List.Pairwise.imp_of_mem _ nodup_range
    intro a b ha hb hne c hca hcb
    have h1 := mem_slotCredits (mem_range.mp ha) ((h a).subset hca)
    have h2 := mem_slotCredits (mem_range.mp hb) ((h b).subset hcb)
    exact hne (h1.symm.trans h2)

section
variable (saveOld : Bool) (thres : UInt64) (t : Tally) (i : ℕ)

theorem coldLoop_sublist (js : List ℕ) (cnt : UInt64) :
    ((coldLoop saveOld thres t i js cnt).map (·.idx)).Sublist
      (js.map fun j => i + j * maxCounterNum) := by
  induction js generalizing cnt with
  | nil => exact .slnil
  | cons j js ih =>
    unfold coldLoop
    simp only
    split
    · exact (ih _).cons_cons _
    · exact (ih _).cons _

theorem coldDecisions_sublist :
    ((coldDecisions saveOld thres t i).map (·.idx)).Sublist (slotCredits i) := by
  unfold coldDecisions
  split
  · exact nil_sublist _
  · exact coldLoop_sublist _ _ _ _ _ _

theorem hotTasks_sublist : ((hotTasks thres t i).map (·.slot)).Sublist (slotCredits i) := by
  unfold hotTasks slotCredits
  split
  · induction List.range slotGranularity with
    | nil => exact .slnil
    | cons j js ih =>
      rw [filterMap_cons]
      split
      · exact ih.cons _
      · rename_i task htask
        simp only [ite_none_right_eq_some, some.injEq] at htask
        rw [← htask.2]
        exact ih.cons_cons _
  · exact nil_sublist _

end

theorem taskLoop_subperm (Q : TaskQueue) (cfg : ServerConfig) (t : Tally) (n i : ℕ)
    (tasks : List CpuTask) (onloadNums : ℕ → UInt64) (attempts : UInt64) :
    ((taskLoop Q cfg t n i tasks onloadNums attempts).map (·.idx)).Subperm
      (tasks.map (·.slot)) := by
  induction n generalizing i tasks onloadNums attempts with
  | zero => exact nil_subperm
  | succ n ih =>
    unfold taskLoop
    split
    · split
      · exact nil_subperm
      · rename_i task rest hpop
        have hperm := (Q.perm_pop hpop).map (·.slot)
        apply List.Subperm.trans _ hperm.subperm
        split
        · rw [map_cons, map_cons, subperm_cons]
          split
          · exact nil_subperm
          · exact ih _ _ _ _
        · rw [map_cons, map_cons, subperm_cons]
          exact ih _ _ _ _
    · exact nil_subperm

variable {d : Decision} {Q : TaskQueue} {cfg : ServerConfig}

theorem realCounters_lt_of_cold {saveOld : Bool} {thres : UInt64} {t : Tally} {i : ℕ}
    (h : d ∈ coldDecisions saveOld thres t i) : t.realCounters i < thres := by
  unfold coldDecisions at h
  split at h
  · simp at h
  · exact UInt64.not_le.mp ‹_›

theorem le_realCounters_of_hot {thres : UInt64} {t : Tally} {i : ℕ} {task : CpuTask}
    (h : task ∈ hotTasks thres t i) : thres ≤ t.realCounters i := by
  unfold hotTasks at h
  split at h
  · assumption
  · simp at h

def cpuTasks (cfg : ServerConfig) (t : Tally) : List CpuTask :=
  (List.range maxCounterNum).flatMap (hotTasks (overThres cfg t) t)

theorem nodup_cpuTasks (cfg : ServerConfig) (t : Tally) :
    ((cpuTasks cfg t).map (·.slot)).Nodup := by
  unfold cpuTasks
  rw [map_flatMap]
  exact nodup_flatMap_slots fun i => hotTasks_sublist _ t i

theorem cold_disjoint_cpuTasks (saveOld : Bool) (cfg : ServerConfig) (t : Tally) :
    (((List.range maxCounterNum).flatMap (coldDecisions saveOld (overThres cfg t) t)).map
      (·.idx)).Disjoint ((cpuTasks cfg t).map (·.slot)) := by
  intro c hcold htask
  unfold cpuTasks at htask
  rw [map_flatMap] at hcold htask
  obtain ⟨i, hi, hci⟩ := mem_flatMap.mp hcold
  obtain ⟨k, hk, hck⟩ := mem_flatMap.mp htask
  have hik : i = k := by
    rw [← mem_slotCredits (mem_range.mp hi) ((coldDecisions_sublist _ _ t i).subset hci),
      ← mem_slotCredits (mem_range.mp hk) ((hotTasks_sublist _ t k).subset hck)]
  obtain ⟨d, hd, -⟩ := mem_map.mp hci
  obtain ⟨task, ht, -⟩ := mem_map.mp hck
  have hlt := realCounters_lt_of_cold hd
  rw [hik] at hlt
  exact UInt64.not_le.mpr hlt (le_realCounters_of_hot ht)

theorem skewedDecisions_nodup (Q : TaskQueue) (cfg : ServerConfig) (t : Tally) :
    ((skewedDecisions Q cfg t).map (·.idx)).Nodup := by
  have hsub := fun onload => taskLoop_subperm Q cfg t (cpuTasks cfg t).length 0 (cpuTasks cfg t)
    onload 0
  unfold skewedDecisions
  simp only [map_append]
  apply List.Nodup.append
  · rw [map_flatMap]
    exact nodup_flatMap_slots fun i => coldDecisions_sublist _ _ t i
  · obtain ⟨l, hp, hs⟩ := hsub fun i => t.realCounters i - t.reqPerSlot
    exact hp.nodup_iff.mp ((nodup_cpuTasks cfg t).sublist hs)
  · intro c hcold htask
    exact cold_disjoint_cpuTasks _ cfg t hcold ((hsub _).subset htask)

theorem coldLoop_decision {saveOld : Bool} {thres : UInt64} {t : Tally} {i : ℕ} {js : List ℕ}
    {cnt : UInt64} (h : d ∈ coldLoop saveOld thres t i js cnt) :
    d.credit = 0 ∧ d.saveOld = saveOld := by
  induction js generalizing cnt with
  | nil => simp [coldLoop] at h
  | cons j js ih =>
    unfold coldLoop at h
    simp only at h
    split at h
    · rcases mem_cons.mp h with rfl | h
      · exact ⟨rfl, rfl⟩
      · exact ih h
    · exact ih h

theorem coldDecisions_decision {saveOld : Bool} {thres : UInt64} {t : Tally} {i : ℕ}
    (h : d ∈ coldDecisions saveOld thres t i) : d.credit = 0 ∧ d.saveOld = saveOld := by
  unfold coldDecisions at h
  split at h
  · simp at h
  · exact coldLoop_decision h

theorem taskLoop_saveOld {t : Tally} {n i : ℕ} {tasks : List CpuTask} {onloadNums : ℕ → UInt64}
    {attempts : UInt64} (h : d ∈ taskLoop Q cfg t n i tasks onloadNums attempts) :
    d.saveOld = !cfg.paEnabled := by
  induction n generalizing i tasks onloadNums attempts with
  | zero => simp [taskLoop] at h
  | succ n ih =>
    unfold taskLoop at h
    split at h
    · split at h
      · simp at h
      · split at h
        · rcases mem_cons.mp h with rfl | h
          · rfl
          · split at h
            · simp at h
            · exact ih h
        · rcases mem_cons.mp h with rfl | h
          · rfl
          · exact ih h
    · simp at h

theorem skewedDecisions_saveOld {t : Tally} (hpa : cfg.paEnabled = false)
    (h : d ∈ skewedDecisions Q cfg t) : d.saveOld = true := by
  rcases mem_append.mp h with h | h
  · obtain ⟨i, -, hd⟩ := mem_flatMap.mp h
    rw [(coldDecisions_decision hd).2, hpa]
    rfl
  · rw [taskLoop_saveOld h, hpa]
    rfl

/-- What `onload_nums[i]` is set to for a hot slot. -/
def excess (t : Tally) (i : ℕ) : UInt64 := t.realCounters i - t.reqPerSlot

/-- A turn of the loop: the task, its slot's budget before, and whether the CPU gets the task. -/
structure Turn where
  task : CpuTask
  onloadNum : UInt64
  taken : Bool

def Turn.decision (saveOld : Bool) (turn : Turn) : Decision :=
  ⟨turn.task.slot, if turn.taken then 1 else 0, saveOld⟩

/-- The loop of `taskLoop`, with any test of a task against the budgets. -/
def turns (Q : TaskQueue) (cfg : ServerConfig) (takes : (ℕ → UInt64) → CpuTask → Bool) (t : Tally) :
    ℕ → ℕ → List CpuTask → (ℕ → UInt64) → UInt64 → List Turn
  | 0, _, _, _, _ => []
  | n + 1, i, tasks, onloadNums, attempts =>
    if i < tasks.length ∧ ¬ (cfg.paEnabled = true ∧ attempts > cfg.totalCpuCap) then
      match Q.pop tasks with
      | none => []
      | some (task, rest) =>
        if takes onloadNums task then
          let attempts := attempts + t.counters task.slot
          ⟨task, onloadNums task.idx, true⟩ ::
            if cfg.paEnabled = false ∧ attempts > cfg.totalCpuCap then []
            else turns Q cfg takes t n (i + 1) rest (Function.update onloadNums task.idx
              (onloadNums task.idx - task.reqCnt)) attempts
        else ⟨task, onloadNums task.idx, false⟩ ::
          turns Q cfg takes t n (i + 1) rest onloadNums attempts
    else []

def phaseTurns (Q : TaskQueue) (cfg : ServerConfig) (takes : (ℕ → UInt64) → CpuTask → Bool)
    (t : Tally) : List Turn :=
  turns Q cfg takes t (cpuTasks cfg t).length 0 (cpuTasks cfg t) (excess t) 0

theorem taskLoop_eq (Q : TaskQueue) (cfg : ServerConfig) (t : Tally) (n i : ℕ)
    (tasks : List CpuTask) (onloadNums : ℕ → UInt64) (attempts : UInt64) :
    taskLoop Q cfg t n i tasks onloadNums attempts =
      (turns Q cfg (takesTask t) t n i tasks onloadNums attempts).map
        (·.decision (!cfg.paEnabled)) := by
  induction n generalizing i tasks onloadNums attempts with
  | zero => rfl
  | succ n ih =>
    unfold taskLoop turns
    by_cases hg : i < tasks.length ∧ ¬ (cfg.paEnabled = true ∧ attempts > cfg.totalCpuCap)
    · rw [if_pos hg, if_pos hg]
      rcases hpop : Q.pop tasks with _ | ⟨task, rest⟩
      · rfl
      · simp only
        by_cases ht : takesTask t onloadNums task = true
        · rw [if_pos ht, if_pos ht, map_cons]
          by_cases hc : cfg.paEnabled = false ∧ attempts + t.counters task.slot > cfg.totalCpuCap
          · rw [if_pos hc, if_pos hc]
            rfl
          · rw [if_neg hc, if_neg hc, ih]
            rfl
        · rw [if_neg ht, if_neg ht, map_cons, ih]
          rfl
    · rw [if_neg hg, if_neg hg]
      rfl

theorem skewedDecisions_eq (Q : TaskQueue) (cfg : ServerConfig) (t : Tally) :
    skewedDecisions Q cfg t =
      (List.range maxCounterNum).flatMap (coldDecisions (!cfg.paEnabled) (overThres cfg t) t) ++
        (phaseTurns Q cfg (takesTask t) t).map (·.decision (!cfg.paEnabled)) := by
  unfold phaseTurns
  rw [← taskLoop_eq]
  rfl

/-- What the loop may do from turn `i` on. It pops only while `attempts` is within the capacity. -/
inductive Trace (Q : TaskQueue) (cap : UInt64) (takes : (ℕ → UInt64) → CpuTask → Bool) (t : Tally) :
    ℕ → List CpuTask → (ℕ → UInt64) → UInt64 → List Turn → Prop
  | stop (i : ℕ) (tasks : List CpuTask) (onloadNums : ℕ → UInt64) (attempts : UInt64) :
    Trace Q cap takes t i tasks onloadNums attempts []
  | skip {i : ℕ} {tasks rest : List CpuTask} {onloadNums : ℕ → UInt64} {attempts : UInt64}
    {task : CpuTask} {l : List Turn} (hi : i < tasks.length) (hcap : attempts ≤ cap)
    (hpop : Q.pop tasks = some (task, rest)) (ht : takes onloadNums task = false)
    (hl : Trace Q cap takes t (i + 1) rest onloadNums attempts l) :
    Trace Q cap takes t i tasks onloadNums attempts (⟨task, onloadNums task.idx, false⟩ :: l)
  | take {i : ℕ} {tasks rest : List CpuTask} {onloadNums : ℕ → UInt64} {attempts : UInt64}
    {task : CpuTask} {l : List Turn} (hi : i < tasks.length) (hcap : attempts ≤ cap)
    (hpop : Q.pop tasks = some (task, rest)) (ht : takes onloadNums task = true)
    (hl : Trace Q cap takes t (i + 1) rest (Function.update onloadNums task.idx
      (onloadNums task.idx - task.reqCnt)) (attempts + t.counters task.slot) l) :
    Trace Q cap takes t i tasks onloadNums attempts (⟨task, onloadNums task.idx, true⟩ :: l)

section
variable (Q : TaskQueue) (cfg : ServerConfig) (takes : (ℕ → UInt64) → CpuTask → Bool) (t : Tally)

theorem trace_turns (n i : ℕ) (tasks : List CpuTask) (onloadNums : ℕ → UInt64) {attempts : UInt64}
    (h : cfg.paEnabled = false → attempts ≤ cfg.totalCpuCap) :
    Trace Q cfg.totalCpuCap takes t i tasks onloadNums attempts
      (turns Q cfg takes t n i tasks onloadNums attempts) := by
  induction n generalizing i tasks onloadNums attempts with
  | zero => exact .stop ..
  | succ n ih =>
    unfold turns
    split
    · rename_i hg
      have hcap : attempts ≤ cfg.totalCpuCap := by
        cases hpa : cfg.paEnabled with
        | false => exact h hpa
        | true => exact UInt64.not_lt.mp fun hlt => hg.2 ⟨hpa, hlt⟩
      split
      · exact .stop ..
      · rename_i task rest hpop
        split
        · rename_i ht
          apply Trace.take hg.1 hcap hpop ht
          split
          · exact .stop ..
          · rename_i hc
            exact ih _ _ _ fun hpa => UInt64.not_lt.mp fun hlt => hc ⟨hpa, hlt⟩
        · rename_i ht
          exact .skip hg.1 hcap hpop (Bool.eq_false_iff.mpr ht) (ih _ _ _ h)
    · exact .stop ..

theorem trace_phaseTurns : Trace Q cfg.totalCpuCap takes t 0 (cpuTasks cfg t) (excess t) 0
    (phaseTurns Q cfg takes t) :=
  trace_turns Q cfg takes t _ 0 _ _ fun _ => UInt64.zero_le

end

namespace Trace
variable {Q : TaskQueue} {cap : UInt64} {takes : (ℕ → UInt64) → CpuTask → Bool} {t : Tally} {i : ℕ}
  {tasks : List CpuTask} {onloadNums : ℕ → UInt64} {attempts : UInt64} {l : List Turn}

section
variable (h : Trace Q cap takes t i tasks onloadNums attempts l)
include h

theorem two_mul_length_le : 2 * l.length ≤ tasks.length - i + 1 := by
  induction h with
  | stop => simp
  | skip hi _ hpop _ _ ih | take hi _ hpop _ _ ih =>
    have hlen := (Q.perm_pop hpop).length_eq
    rw [length_cons] at hlen ⊢
    omega

theorem subperm : (l.map (·.task)).Subperm tasks := by
  induction h with
  | stop => exact nil_subperm
  | skip _ _ hpop _ _ ih | take _ _ hpop _ _ ih =>
    exact ((subperm_cons _).mpr ih).trans (Q.perm_pop hpop).subperm

theorem mem_tasks {turn : Turn} (ht : turn ∈ l) : turn.task ∈ tasks :=
  h.subperm.subset (mem_map_of_mem ht)

theorem sorted : l.Pairwise fun a b => b.task.reqCnt ≤ a.task.reqCnt := by
  induction h with
  | stop => exact .nil
  | skip _ _ hpop _ hl ih | take _ _ hpop _ hl ih =>
    refine .cons (fun turn hturn => ?_) ih
    exact Q.le_pop hpop _ ((Q.perm_pop hpop).subset (.tail _ (hl.mem_tasks hturn)))

end

end Trace

section
variable {cfg : ServerConfig} {t : Tally} {task : CpuTask}

theorem mem_cpuTasks (h : task ∈ cpuTasks cfg t) :
    task.idx < maxCounterNum ∧ overThres cfg t ≤ t.realCounters task.idx ∧
      task.reqCnt = t.counters task.slot := by
  obtain ⟨i, hi, htask⟩ := mem_flatMap.mp h
  have hhot := le_realCounters_of_hot htask
  unfold hotTasks at htask
  rw [if_pos hhot] at htask
  obtain ⟨j, -, hj⟩ := mem_filterMap.mp htask
  simp only [ite_none_right_eq_some, some.injEq] at hj
  rw [← hj.2]
  exact ⟨mem_range.mp hi, hhot, rfl⟩

end

end Fusa.Agent

import Fusa.Lib.Bump
import Fusa.Lib.Queues
import Fusa.Smart.Requests

/-! Conflict avoidance: a thread lets only so many of its tasks work at a time, and moves that
bound with the rate of retries. -/
namespace Fusa.Smart
open Transition Requests Function List Option

structure FixedQueue where
  elem : ℕ → ℕ
  head : ℕ
  tail : ℕ
  head_lt : head < kMaxTasksPerThread
  tail_lt : tail < kMaxTasksPerThread

namespace FixedQueue

def new : FixedQueue := ⟨fun _ => 0, 0, 0, by decide, by decide⟩

variable (q : FixedQueue)

def push (task : ℕ) : FixedQueue :=
  { q with
    elem := update q.elem q.head task
    head := Ring.after kMaxTasksPerThread q.head
    head_lt := Ring.after_lt q.head_lt }

def empty : Bool := q.head = q.tail

def pop : FixedQueue :=
  { q with tail := Ring.after kMaxTasksPerThread q.tail, tail_lt := Ring.after_lt q.tail_lt }

def front : ℕ := q.elem q.tail

def contents : List ℕ := Ring.between q.elem kMaxTasksPerThread q.tail q.head

variable {q : FixedQueue}

theorem empty_iff (q : FixedQueue) : q.empty = true ↔ q.contents = [] := by
  unfold empty contents
  rw [decide_eq_true_iff, Ring.between_eq_nil q.tail_lt q.head_lt]

/-- `push` has no test for a full ring, which it would take for an empty one. -/
theorem contents_push (h : q.contents.length + 1 < kMaxTasksPerThread) (task : ℕ) :
    (q.push task).contents = q.contents ++ [task] := by
  refine Ring.between_snoc q.tail_lt q.head_lt ?_ task
  rw [Ne, Ring.after_eq_iff q.tail_lt q.head_lt]
  rw [contents, Ring.length_between] at h
  omega

theorem contents_pop (h : q.contents ≠ []) : q.contents = q.front :: q.pop.contents := by
  refine Ring.between_cons q.tail_lt q.head_lt fun he => h ?_
  exact (Ring.between_eq_nil q.tail_lt q.head_lt).mpr he

end FixedQueue

def kInitialBackoffCycles : ℕ := 4096

def kMaxBackoffCycles : ℕ := 4194304

/-- The tasks of a thread, of which there are fewer than `kMaxTasksPerThread`. -/
structure BackoffConfig where
  tasks : Finset ℕ
  card_lt : tasks.card < kMaxTasksPerThread
  autoAdjust : Bool

/-- The `Backoff` of a thread, the tasks in `begin_task`, and the order of calls and admissions. -/
structure Backoff where
  credit : ℤ
  maxCredit : ℤ
  taskList : FixedQueue
  maxBackoffCycles : ℕ
  waiting : ℕ → Bool
  inside : ℕ → ℕ
  called : List ℕ
  admitted : List ℕ

/-- What the rate of retries tells `update_credit` to do. -/
inductive Rate
  | low
  | high
  | between
deriving DecidableEq, Repr

inductive BackoffLabel
  /-- `begin_task` up to its loop. -/
  | begin (task : ℕ)
  /-- The condition of that loop is evaluated. -/
  | turn (task : ℕ)
  | endTask (task : ℕ)
  | retryTask (task : ℕ) (rate : Rate)
deriving DecidableEq, Repr

namespace Backoff

def new : Backoff where
  credit := kMaxTasksPerThread
  maxCredit := kMaxTasksPerThread
  taskList := .new
  maxBackoffCycles := kInitialBackoffCycles
  waiting _ := false
  inside _ := 0
  called := []
  admitted := []

def setMaxCredit (b : Backoff) (newMaxCredit : ℤ) : Backoff :=
  { b with credit := b.credit + (newMaxCredit - b.maxCredit), maxCredit := newMaxCredit }

variable (cfg : BackoffConfig)

def updateCredit (b : Backoff) : Rate → Backoff
  | .low =>
    let newMaxCredit := min (b.maxCredit * 2) kMaxTasksPerThread
    if newMaxCredit = b.maxCredit ∧ cfg.autoAdjust then
      { b with maxBackoffCycles := max (b.maxBackoffCycles / 2) kInitialBackoffCycles }
    else b.setMaxCredit newMaxCredit
  | .high =>
    let newMaxCredit := max (b.maxCredit / 2) 1
    if newMaxCredit = b.maxCredit ∧ cfg.autoAdjust then
      { b with maxBackoffCycles := min (b.maxBackoffCycles * 2) kMaxBackoffCycles }
    else b.setMaxCredit newMaxCredit
  | .between => b

/-- A task that waits does nothing else, and only an admitted task comes to its end. -/
def next (b : Backoff) : BackoffLabel → Option Backoff
  | .begin task =>
    if task ∈ cfg.tasks ∧ b.waiting task = false then
      some { b with
        taskList := b.taskList.push task
        waiting := update b.waiting task true
        called := b.called ++ [task] }
    else none
  | .turn task =>
    if b.waiting task then
      if b.taskList.front ≠ task ∨ b.credit ≤ 0 then some b
      else
        some { b with
          taskList := b.taskList.pop
          credit := b.credit - 1
          waiting := update b.waiting task false
          inside := update b.inside task (b.inside task + 1)
          admitted := b.admitted ++ [task] }
    else none
  | .endTask task =>
    if b.waiting task = false ∧ 0 < b.inside task then
      some { b with
        credit := b.credit + 1
        inside := update b.inside task (b.inside task - 1) }
    else none
  | .retryTask task rate =>
    if task ∈ cfg.tasks ∧ b.waiting task = false then some (updateCredit cfg b rate) else none

def system : System Backoff BackoffLabel := ⟨(· = new), next cfg⟩

def admissions (b : Backoff) : ℕ := ∑ task ∈ cfg.tasks, b.inside task

/-- Credit is conserved, the bound in range, admission in order, and the ring holds who waits. -/
structure Fair (b : Backoff) : Prop where
  conserved : b.credit + admissions cfg b = b.maxCredit
  range : 1 ≤ b.maxCredit ∧ b.maxCredit ≤ kMaxTasksPerThread
  order : b.admitted <+: b.called
  ring : b.called = b.admitted ++ b.taskList.contents
  empty : b.taskList.empty = true ↔ ∀ task, b.waiting task = false

/-- The queue holds each waiting task once, and nobody outside the thread's tasks is in. -/
structure Sound (b : Backoff) : Prop where
  conserved : b.credit + admissions cfg b = b.maxCredit
  range : 1 ≤ b.maxCredit ∧ b.maxCredit ≤ kMaxTasksPerThread
  ring : b.called = b.admitted ++ b.taskList.contents
  nodup : b.taskList.contents.Nodup
  waits : ∀ task, b.waiting task = true ↔ task ∈ b.taskList.contents
  known : ∀ task ∈ b.taskList.contents, task ∈ cfg.tasks
  strangers : ∀ task ∉ cfg.tasks, b.inside task = 0

variable {cfg} {b b' : Backoff} {task : ℕ}

theorem Sound.fair (h : Sound cfg b) : Fair cfg b := by
  refine ⟨h.conserved, h.range, ⟨_, h.ring.symm⟩, h.ring, ?_⟩
  rw [FixedQueue.empty_iff, eq_nil_iff_forall_not_mem]
  simp only [← h.waits, Bool.not_eq_true]

theorem sound_new : Sound cfg new where
  conserved := by simp [new, admissions]
  range := by decide
  ring := rfl
  nodup := nodup_nil
  waits _ := by simp [new, FixedQueue.contents, FixedQueue.new, Ring.between, Cyclic.dist]
  known := by simp [new, FixedQueue.contents, FixedQueue.new, Ring.between, Cyclic.dist]
  strangers _ _ := rfl

theorem admissions_update (ht : task ∈ cfg.tasks) (n : ℕ) :
    admissions cfg { b with inside := update b.inside task n } + b.inside task =
      admissions cfg b + n :=
  Cover.sum_update cfg.tasks (fun _ n => n) b.inside ht n

section
variable (h : Sound cfg b)
include h

theorem Sound.length_lt (ht : task ∈ cfg.tasks) (hw : b.waiting task = false) :
    b.taskList.contents.length + 1 < kMaxTasksPerThread := by
  have hnot : task ∉ b.taskList.contents := by
    rw [← h.waits, hw]
    decide
  have hsub : (task :: b.taskList.contents).toFinset ⊆ cfg.tasks := by
    intro u hu
    rcases mem_cons.mp (mem_toFinset.mp hu) with rfl | hu
    · exact ht
    · exact h.known u hu
  have hcard := Finset.card_le_card hsub
  rw [toFinset_card_of_nodup (nodup_cons.mpr ⟨hnot, h.nodup⟩), length_cons] at hcard
  have := cfg.card_lt
  omega

theorem Sound.begin (ht : task ∈ cfg.tasks) (hw : b.waiting task = false) :
    Sound cfg { b with
      taskList := b.taskList.push task
      waiting := update b.waiting task true
      called := b.called ++ [task] } := by
  have hpush := FixedQueue.contents_push (h.length_lt ht hw) task
  have hnot : task ∉ b.taskList.contents := by
    rw [← h.waits, hw]
    decide
  refine ⟨h.conserved, h.range, ?_, ?_, fun u => ?_, ?_, h.strangers⟩
  · rw [hpush, h.ring, append_assoc]
  · rw [hpush, nodup_append_comm]
    exact nodup_cons.mpr ⟨hnot, h.nodup⟩
  · dsimp only
    rw [hpush, mem_append, mem_singleton, ← h.waits]
    by_cases hu : u = task
    · simp [hu]
    · simp [hu]
  · rw [hpush]
    intro u hu
    rcases mem_append.mp hu with hu | hu
    · exact h.known u hu
    · rwa [mem_singleton.mp hu]

theorem Sound.admit (hw : b.waiting task = true) (hf : b.taskList.front = task) :
    Sound cfg { b with
      taskList := b.taskList.pop
      credit := b.credit - 1
      waiting := update b.waiting task false
      inside := update b.inside task (b.inside task + 1)
      admitted := b.admitted ++ [task] } := by
  have hmem : task ∈ b.taskList.contents := (h.waits task).mp hw
  have hpop := FixedQueue.contents_pop (ne_nil_of_mem hmem)
  rw [hf] at hpop
  have hnd := h.nodup
  rw [hpop, nodup_cons] at hnd
  have hsum := admissions_update (b := b) (h.known task hmem) (b.inside task + 1)
  refine ⟨?_, h.range, ?_, hnd.2, fun u => ?_, fun u hu => ?_, fun u hu => ?_⟩
  · have := h.conserved
    change b.credit - 1 + ↑(admissions cfg
      { b with inside := update b.inside task (b.inside task + 1) }) = b.maxCredit
    omega
  · rw [h.ring, hpop]
    simp
  · dsimp only
    by_cases hu : u = task
    · rw [hu, update_self]
      simp [hnd.1]
    · rw [update_of_ne hu, h.waits, hpop]
      simp [hu]
  · exact h.known u (by rw [hpop]; exact mem_cons_of_mem _ hu)
  · dsimp only
    have hne : u ≠ task := fun he => hu (he ▸ h.known task hmem)
    rw [update_of_ne hne]
    exact h.strangers u hu

theorem Sound.endTask (hi : 0 < b.inside task) :
    Sound cfg { b with
      credit := b.credit + 1
      inside := update b.inside task (b.inside task - 1) } := by
  have ht : task ∈ cfg.tasks := by
    by_contra hno
    rw [h.strangers task hno] at hi
    exact Nat.lt_irrefl 0 hi
  have hsum := admissions_update (b := b) ht (b.inside task - 1)
  refine ⟨?_, h.range, h.ring, h.nodup, h.waits, h.known, fun u hu => ?_⟩
  · have := h.conserved
    change b.credit + 1 + ↑(admissions cfg
      { b with inside := update b.inside task (b.inside task - 1) }) = b.maxCredit
    omega
  · dsimp only
    have hne : u ≠ task := fun he => hu (he ▸ ht)
    rw [update_of_ne hne]
    exact h.strangers u hu

theorem Sound.setMaxCredit {n : ℤ} (hn : 1 ≤ n ∧ n ≤ kMaxTasksPerThread) :
    Sound cfg (b.setMaxCredit n) := by
  refine ⟨?_, hn, h.ring, h.nodup, h.waits, h.known, h.strangers⟩
  have := h.conserved
  change b.credit + (n - b.maxCredit) + ↑(admissions cfg b) = n
  omega

theorem Sound.updateCredit (rate : Rate) : Sound cfg (updateCredit cfg b rate) := by
  have hmax := h.range
  cases rate with
  | low | high =>
    simp only [Backoff.updateCredit]
    split_ifs
    · exact ⟨h.conserved, h.range, h.ring, h.nodup, h.waits, h.known, h.strangers⟩
    · exact h.setMaxCredit (by unfold kMaxTasksPerThread at hmax ⊢; omega)
  | between => exact h

theorem Sound.next {a : BackoffLabel} (hn : next cfg b a = some b') : Sound cfg b' := by
  cases a with
  | begin task =>
    obtain ⟨hc, ⟨⟩⟩ := ite_none_right_eq_some.mp hn
    exact h.begin hc.1 hc.2
  | turn task =>
    simp only [Backoff.next] at hn
    split_ifs at hn with hw hout
    · cases hn
      exact h
    · cases hn
      simp only [not_or, not_not] at hout
      exact h.admit hw hout.1
  | endTask task =>
    obtain ⟨hc, ⟨⟩⟩ := ite_none_right_eq_some.mp hn
    exact h.endTask hc.2
  | retryTask task rate =>
    obtain ⟨-, ⟨⟩⟩ := ite_none_right_eq_some.mp hn
    exact h.updateCredit rate

end

/-- Whatever tasks and retries do, admission is fair and credit is conserved. -/
theorem fair_of_reachable (h : (system cfg).Reachable b) : Fair cfg b :=
  Sound.fair <| h.invariant (P := Sound cfg) (fun s (hs : s = new) => hs ▸ sound_new)
    fun _ _ _ hs hn => hs.next hn

def twoTasks : BackoffConfig := ⟨{1, 2}, by decide, true⟩

theorem fair_twoTasks : ∃ b, (system twoTasks).Reachable b ∧ Fair twoTasks b ∧
    b.credit = -1 ∧ b.maxCredit = 1 ∧ b.admitted = [2, 1] := by
  obtain ⟨b, -, h, hv⟩ := (system twoTasks).exists_reachable
    (fun b => b.credit = -1 ∧ b.maxCredit = 1 ∧ b.admitted = [2, 1]) rfl
    ([.begin 2, .begin 1, .turn 1, .turn 2, .turn 1] ++ List.replicate 6 (.retryTask 1 .high))
    (by decide +kernel)
  exact ⟨b, h, fair_of_reachable h, hv⟩

end Backoff

end Fusa.Smart

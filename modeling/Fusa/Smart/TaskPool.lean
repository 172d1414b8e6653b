import Fusa.Lib.Queues
import Fusa.Smart.Requests

/-! The cooperative tasks of a thread: two queues of intrusive nodes, and the switches between
tasks. -/
namespace Fusa.Smart
open Transition Requests DList Function List

inductive QueueName
  | running
  | blocking
deriving DecidableEq, Repr

/-- The objects of type `Task`: the slots of `task_list` and the two ends of each queue. -/
inductive Node
  | task (id : ℕ)
  | head (q : QueueName)
  | tail (q : QueueName)
deriving DecidableEq, Repr

structure Task where
  init : Bool
  blocked : Bool
  exit : Bool
deriving DecidableEq, Repr

structure TaskPool where
  active : Option ℕ
  nrRunning : ℤ
  nrBlocking : ℤ
  nrSchedule : ℕ
  links : Links Node
  task : ℕ → Task

inductive TaskOp
  | spawn
  | yield
  | wait
  | notify
  | notifyTask (id : ℕ)
  | notifyAll
  | exit
deriving DecidableEq, Repr

namespace TaskPool

def kForceUnblockInterval : ℕ := 1024

def emptyLinks : Links Node where
  prev
    | .head q => some (.tail q)
    | _ => none
  next
    | .tail q => some (.head q)
    | _ => none

/-- The pool before its main task is queued: zeroed, but `nr_schedule` may be anything. -/
def unqueued (nrSchedule : ℕ) : TaskPool where
  active := some 0
  nrRunning := 0
  nrBlocking := 0
  nrSchedule := nrSchedule
  links := emptyLinks
  task i := ⟨i = 0, false, false⟩

variable (s : TaskPool) (prev : ℕ)

def enqueue (q : QueueName) (id : ℕ) : Option TaskPool := do
  let links ← DList.enqueue s.links (.head q) (.task id)
  some { s with links := links }

def dequeue (q : QueueName) : Option (Option ℕ × TaskPool) := do
  let (node, links) ← DList.dequeue s.links (.tail q) (.head q)
  match node with
  | none => some (none, s)
  | some (.task id) => some (some id, { s with links := links })
  | some _ => none

def setTask (id : ℕ) (t : Task) : TaskPool :=
  { s with task := Function.update s.task id t }

/-- A task that was taken out of the queue `blocking` may run. -/
def unblock (id : ℕ) : Option TaskPool :=
  enqueue (s.setTask id { s.task id with blocked := false }) .running id

/-- The loop of `notify_all`, for so many tasks at most. -/
def notifyLoop : ℕ → TaskPool → Option TaskPool
  | 0, _ => none
  | n + 1, s => do
    let (id, s) ← s.dequeue .blocking
    match id with
    | none => some s
    | some id => do
      let s ← s.unblock id
      notifyLoop n s

def notifyAll : Option TaskPool :=
  if s.nrBlocking = 0 then some s
  else (notifyLoop kMaxTasksPerThread s).map fun s => { s with nrBlocking := 0 }

def notify : Option TaskPool :=
  if s.nrBlocking = 0 then some s
  else do
    let (id, s) ← s.dequeue .blocking
    let s ← s.unblock (← id)
    some { s with nrBlocking := s.nrBlocking - 1 }

def notifyTask (id : ℕ) : Option TaskPool :=
  if s.nrBlocking ≠ 0 ∧ (s.task id).blocked = true then do
    let links ← DList.detach s.links (.task id)
    let s ← unblock { s with links := links } id
    some { s with nrBlocking := s.nrBlocking - 1 }
  else some s

/-- `fcontext_ontop`, on the stack of the next task. -/
def ontop : TaskPool :=
  if (s.task prev).exit then s.setTask prev { s.task prev with init := false } else s

/-- `schedule` behind the forced unblock; without a task it jumps through a null pointer. -/
def switch (reuse : Bool) : Option TaskPool := do
  let (id, s) ← s.dequeue .running
  if id = some prev then some s
  else
    let s ← if reuse then s.enqueue .running prev else some s
    match id with
    | none => some { s with active := none }
    | some id => some (ontop { s with active := some id } prev)

def schedule (reuse : Bool) : Option TaskPool := do
  let s ← if kForceUnblockInterval < s.nrSchedule + 1 then notifyAll { s with nrSchedule := 0 }
    else some { s with nrSchedule := s.nrSchedule + 1 }
  switch s prev reuse

def freeSlot : Option ℕ :=
  (List.range' 1 (kMaxTasksPerThread - 1)).find? fun id => (s.task id).init = false

/-- Without a free slot `spawn` schedules, and looks again when it is back. -/
def spawn : Option TaskPool :=
  match s.freeSlot with
  | some id =>
    enqueue { s.setTask id ⟨true, false, false⟩ with nrRunning := s.nrRunning + 1 } .running id
  | none => schedule s prev true

def wait : Option TaskPool :=
  if prev = 0 then some s
  else do
    let s ← enqueue (s.setTask prev { s.task prev with blocked := true }) .blocking prev
    schedule { s with nrBlocking := s.nrBlocking + 1 } prev false

/-- The end of `fcontext_entry`, which the main task does not run. -/
def exitTask : Option TaskPool :=
  if prev = 0 then none
  else
    schedule { s.setTask prev { s.task prev with exit := true } with
      nrRunning := s.nrRunning - 1 } prev false

def next (op : TaskOp) : Option TaskPool := do
  let prev ← s.active
  match op with
  | .spawn => spawn s prev
  | .yield => schedule s prev true
  | .wait => wait s prev
  | .notify => notify s
  | .notifyTask id => notifyTask s id
  | .notifyAll => notifyAll s
  | .exit => exitTask s prev

def system : System TaskPool TaskOp where
  start s := ∃ n, enqueue (unqueued n) .running 0 = some s
  next := next

/-- The slots of `task_list` whose task was spawned and has not exited, and the main task. -/
def Live (id : ℕ) : Prop :=
  id < kMaxTasksPerThread ∧ (s.task id).init = true ∧ (s.task id).exit = false

def liveCount : ℕ :=
  ∑ id ∈ Finset.Ico 1 kMaxTasksPerThread,
    if (s.task id).init = true ∧ (s.task id).exit = false then 1 else 0

/-- The two queues hold these tasks, and none in both. -/
structure Queues (links : Links Node) (l : QueueName → List ℕ) : Prop where
  lists : ∀ q, IsList links (.tail q) (.head q) ((l q).map .task)
  apart : ∀ q q' id, id ∈ l q → id ∈ l q' → q = q'

def pair (running blocking : List ℕ) : QueueName → List ℕ
  | .running => running
  | .blocking => blocking

/-- The queues are disjoint lists without repetition, counters and flags fit them, and every live
task but the active one is in one. -/
structure Consistent (s : TaskPool) (running blocking : List ℕ) : Prop where
  queues : Queues s.links (pair running blocking)
  blocked : ∀ id, (s.task id).blocked = true ↔ id ∈ blocking
  nrBlocking : s.nrBlocking = blocking.length
  nrRunning : s.nrRunning = s.liveCount
  queued : ∀ id, s.Live id → s.active ≠ some id → id ∈ running ∨ id ∈ blocking

/-! ### The queues -/

variable {L : Links Node} {l : QueueName → List ℕ} {q : QueueName} {id : ℕ}

theorem Queues.nodup (h : Queues L l) (q : QueueName) : (l q).Nodup := by
  have hnd := (nodup_cons.mp (h.lists q).nodup).2
  exact (nodup_append.mp hnd).1.of_map _

theorem task_not_mem (hid : id ∉ l q) :
    Node.task id ∉ Node.tail q :: ((l q).map .task ++ [.head q]) := by
  simp [hid]

theorem Queues.foreign (h : Queues L l) {q' : QueueName} (hq : q' ≠ q) :
    ∀ v ∈ Node.tail q' :: ((l q').map .task ++ [.head q']),
      v ∉ Node.tail q :: ((l q).map .task ++ [.head q]) := by
  intro v hv hv'
  simp only [mem_cons, mem_append, mem_map, not_mem_nil, or_false] at hv hv'
  rcases hv with rfl | ⟨i, hi, rfl⟩ | rfl
  · simp [hq] at hv'
  · simp only [reduceCtorEq, Node.task.injEq, exists_eq_right, false_or, or_false] at hv'
    exact hq (h.apart q' q i hi hv')
  · simp [hq] at hv'

variable {q₁ : QueueName} {i : ℕ} {s : TaskPool}

theorem mem_update_append : i ∈ update l q (l q ++ [id]) q₁ ↔ i ∈ l q₁ ∨ q₁ = q ∧ i = id := by
  by_cases hq : q₁ = q <;> simp [hq]

theorem mem_update_remove (hnd : (l q).Nodup) {xs ys : List ℕ} (hl : l q = xs ++ id :: ys) :
    i ∈ update l q (xs ++ ys) q₁ ↔ i ∈ l q₁ ∧ ¬ (q₁ = q ∧ i = id) := by
  by_cases hq : q₁ = q
  · have hout : id ∉ xs ++ ys := by
      rw [hl] at hnd
      exact (nodup_cons.mp (nodup_middle.mp hnd)).1
    subst hq
    rw [update_self, hl]
    grind
  · simp [hq]

theorem Queues.enqueue (h : Queues L l) (hid : ∀ q, id ∉ l q) (q : QueueName) :
    ∃ L', DList.enqueue L (.head q) (.task id) = some L' ∧
      Queues L' (update l q (l q ++ [id])) := by
  obtain ⟨L', he, hlist, hsame⟩ := (h.lists q).enqueue (task_not_mem (hid q))
  refine ⟨L', he, fun q' => ?_, fun q₁ q₂ i h₁ h₂ => ?_⟩
  · by_cases hq : q' = q
    · rwa [hq, update_self, map_append]
    · rw [update_of_ne hq]
      refine (h.lists q').congr fun v hv => hsame v ?_ (h.foreign hq v hv)
      rintro rfl
      exact task_not_mem (hid q') hv
  · rw [mem_update_append] at h₁ h₂
    rcases h₁ with h₁ | ⟨rfl, rfl⟩ <;> rcases h₂ with h₂ | ⟨rfl, h₂⟩
    · exact h.apart q₁ q₂ i h₁ h₂
    · exact absurd (h₂ ▸ h₁) (hid q₁)
    · exact absurd h₂ (hid q₂)
    · rfl

theorem Queues.detach (h : Queues L l) {xs ys : List ℕ} (hl : l q = xs ++ id :: ys) :
    ∃ L', DList.detach L (.task id) = some L' ∧ Queues L' (update l q (xs ++ ys)) := by
  have hlist := h.lists q
  rw [hl, map_append, map_cons] at hlist
  obtain ⟨L', he, hlist, hsame⟩ := hlist.detach
  refine ⟨L', he, fun q' => ?_, fun q₁ q₂ i h₁ h₂ => ?_⟩
  · by_cases hq : q' = q
    · rwa [hq, update_self, map_append]
    · rw [update_of_ne hq]
      refine (h.lists q').congr fun v hv => hsame v ?_
      have hout := h.foreign hq v hv
      rwa [hl, map_append, map_cons] at hout
  · rw [mem_update_remove (h.nodup q) hl] at h₁ h₂
    exact h.apart q₁ q₂ i h₁.1 h₂.1

theorem Queues.dequeue_nil (h : Queues s.links l) (hl : l q = []) :
    s.dequeue q = some (none, s) := by
  have hlist := h.lists q
  rw [hl] at hlist
  rw [dequeue, hlist.dequeue_nil]
  rfl

theorem Queues.dequeue_cons (h : Queues s.links l) {ids : List ℕ} (hl : l q = id :: ids) :
    ∃ L', s.dequeue q = some (some id, { s with links := L' }) ∧
      Queues L' (update l q ids) := by
  have hl' : l q = [] ++ id :: ids := hl
  obtain ⟨L', hd, hq⟩ := h.detach hl'
  have hlist := h.lists q
  rw [hl, map_cons] at hlist
  refine ⟨L', ?_, hq⟩
  rw [dequeue, hlist.dequeue_cons, hd]
  rfl

variable {R B : List ℕ}

@[simp] theorem update_pair_running (X : List ℕ) : update (pair R B) .running X = pair X B := by
  funext q
  cases q <;> rfl

@[simp] theorem update_pair_blocking (X : List ℕ) : update (pair R B) .blocking X = pair R X := by
  funext q
  cases q <;> rfl

theorem Queues.not_mem_blocking (h : Queues L (pair R B)) (hid : id ∈ R) : id ∉ B := by
  intro hB
  have := h.apart .running .blocking id hid hB
  cases this

theorem not_mem_pair (hR : id ∉ R) (hB : id ∉ B) : ∀ q, id ∉ pair R B q := by
  intro q
  cases q with
  | running => exact hR
  | blocking => exact hB

end TaskPool

end Fusa.Smart

import Fusa.Table.Extendible

/-! `resize_lock`, and the tasks of one thread at it. -/
namespace Fusa.Table

/-- `resize_lock` and `resize_lock_cnt` of a thread; the lock is free when its owner is `-1`. -/
structure ResizeLock where
  owner : ℤ
  count : ℕ
deriving DecidableEq, Repr

namespace ResizeLock

/-- The loop before `retry` ends. -/
def admits (l : ResizeLock) (task : ℤ) : Bool := l.owner = -1 ∨ l.owner = task

def acquire (l : ResizeLock) (task : ℤ) : ResizeLock := ⟨task, l.count + 1⟩

/-- `resize_lock = false` stores 0, not `-1`. -/
def release (l : ResizeLock) : ResizeLock := ⟨if l.count - 1 = 0 then 0 else l.owner, l.count - 1⟩

end ResizeLock

/-- A task in `resize`, and the lock of its thread. -/
structure ResizeTask where
  task : ℤ
  lock : ResizeLock
  waiting : Bool
  resizer : Resizer

section
variable (hash : Bytes → Hashes) (alloc : ℕ → ℕ)

/-- Behind `read_directory` a turn of the loop before `retry`, or an operation of `resize`. -/
def lockedStep (m : Memory) (c : ResizeTask) : Option (Memory × ResizeTask) :=
  if c.waiting ∧ c.resizer.pc ≠ .start then
    some (m, if c.lock.admits c.task then
      { c with lock := c.lock.acquire c.task, waiting := false } else c)
  else
    (resizeStep hash alloc m c.resizer).map fun p =>
      (p.1,
        -- after the unlocks `resize` has split the subtable, unless it goes back to `retry`
        if c.resizer.pc = .unlockNew ∧ p.2.pc ≠ .size then
          { c with resizer := p.2, lock := c.lock.release, waiting := p.2.pc = .start }
        else { c with resizer := p.2 })

def LockedRuns : Memory × ResizeTask → Memory × ResizeTask → Prop :=
  Relation.ReflTransGen fun s t => lockedStep hash alloc s.1 s.2 = some t

end

variable {x : Split} {hash : Bytes → Hashes} {alloc : ℕ → ℕ} {m₀ m m' : Memory}
  {c c' : ResizeTask}

theorem LockedRuns.pc_of_kept_out (hw : c.waiting = true) (hl : c.lock.admits c.task = false)
    (hpc : c.resizer.pc = .start) {t : Memory × ResizeTask}
    (h : LockedRuns hash alloc (m, c) t) : t.2.resizer.pc ≠ .returned := by
  have hall : t.2.waiting = true ∧ t.2.lock.admits t.2.task = false ∧
      (t.2.resizer.pc = .start ∨ t.2.resizer.pc = .size) := by
    induction h with
    | refl => exact ⟨hw, hl, .inl hpc⟩
    | tail _ hn ih =>
      obtain ⟨hw, hl, hpc | hpc⟩ := ih
      · simp only [lockedStep, hw, hpc, resizeStep, ne_eq, not_true, and_false, if_false,
          Option.map_some, reduceCtorEq, false_and] at hn
        cases hn
        refine ⟨rfl, hl, ?_⟩
        split
        · exact .inl hpc
        · exact .inr rfl
      · rw [lockedStep, if_pos ⟨hw, by simp [hpc]⟩, hl] at hn
        cases hn
        exact ⟨hw, hl, .inr hpc⟩
  rcases hall.2.2 with hpc | hpc <;> simp [hpc]

section
variable (hap : Apart x.oldTable x.newTable)
  (hidle : ∀ i < 2 ^ x.dir.globalDepth, (x.dir.subtables i).lock = 0)
include hap hidle

theorem Alone.lockedStep (h : Alone x hash alloc m₀ m c.resizer)
    (hn : lockedStep hash alloc m c = some (m', c')) : Alone x hash alloc m₀ m' c'.resizer := by
  unfold Table.lockedStep at hn
  split at hn
  · cases hn
    split <;> exact h
  · obtain ⟨⟨m'', r''⟩, hp, heq⟩ := Option.map_eq_some_iff.mp hn
    cases heq
    have hstep := h.step hp hap hidle
    split <;> exact hstep

theorem Alone.lockedRuns (h : Alone x hash alloc m₀ m c.resizer)
    (hr : LockedRuns hash alloc (m, c) (m', c')) : Alone x hash alloc m₀ m' c'.resizer := by
  have hall : ∀ t, LockedRuns hash alloc (m, c) t → Alone x hash alloc m₀ t.1 t.2.resizer := by
    intro t ht
    induction ht with
    | refl => exact h
    | tail _ hn ih => exact ih.lockedStep hap hidle hn
  exact hall _ hr

theorem Alone.exists_lockedRuns (hw : c.waiting = false)
    (h : Alone x hash alloc m₀ m c.resizer) (hd : x.depth < kMaxGlobalDepth) :
    ∃ m' c', LockedRuns hash alloc (m, c) (m', c') ∧ c'.resizer.pc = .returned ∧
      Alone x hash alloc m₀ m' c'.resizer := by
  have hends : ∃ t, LockedRuns hash alloc (m, c) t ∧
      (t.2.waiting = false ∧ Alone x hash alloc m₀ t.1 t.2.resizer) ∧
      t.2.resizer.pc = .returned := by
    refine Machine.exists_reaches (fun s => s.2.resizer.rank) (fun s hs hnot => ?_) ⟨hw, h⟩
    obtain ⟨hsw, hs⟩ := hs
    obtain ⟨p, hp⟩ := hs.exists_step hd hnot
    have hstep := hs.step hp hap hidle
    have hrank := hs.rank_step hp hstep.slots.pc_ne_undo
    refine ⟨_, by rw [Table.lockedStep, if_neg (by simp [hsw]), hp]; rfl, ⟨?_, ?_⟩, ?_⟩
    · dsimp only
      split
      · rename_i hu
        simp [(hs.control.step_unlockNew hp hu.1).1]
      · exact hsw
    · dsimp only
      split <;> exact hstep
    · dsimp only
      split <;> exact hrank
  obtain ⟨⟨m', c'⟩, hruns, ⟨-, hm⟩, hr⟩ := hends
  exact ⟨m', c', hruns, hr, hm⟩

end

open Transition Function Option

/-- Whether a task is in `resize`, and on which side of the lock. -/
inductive ResizePhase
  | out
  | reading
  | waiting
  | inside
deriving DecidableEq, Repr

structure ResizeThread where
  lock : ResizeLock
  suffix : ℤ
  phase : ℕ → ResizePhase

inductive ResizeEvent
  /-- `resize` is called. -/
  | call (task : ℕ)
  /-- `read_directory` returns. -/
  | read (task : ℕ)
  /-- The condition of the loop before `retry` is evaluated. -/
  | turn (task : ℕ)
  /-- `move_bucket` finds no slot in the new subtable. -/
  | noSlot (task newSuffix : ℕ)
  /-- The return after the pointers were found to differ. -/
  | returnEarly (task : ℕ)
  /-- The end of `resize`, with the call for a pending suffix. -/
  | finish (task : ℕ)
deriving DecidableEq, Repr

namespace ResizeThread

def new : ResizeThread := ⟨⟨-1, 0⟩, -1, fun _ => .out⟩

def setPhase (s : ResizeThread) (task : ℕ) (p : ResizePhase) : ResizeThread :=
  { s with phase := Function.update s.phase task p }

def next (n : ℕ) (s : ResizeThread) : ResizeEvent → Option ResizeThread
  | .call task =>
    if task < n ∧ s.phase task = .out then some (s.setPhase task .reading) else none
  | .read task => if s.phase task = .reading then some (s.setPhase task .waiting) else none
  | .turn task =>
    if s.phase task = .waiting then
      if s.lock.admits task then
        some { s.setPhase task .inside with lock := s.lock.acquire task }
      else some s
    else none
  | .noSlot task newSuffix =>
    if s.phase task = .inside then
      some { s with suffix := if 0 ≤ s.suffix then s.suffix else newSuffix }
    else none
  | .returnEarly task =>
    if s.phase task = .inside then some { s.setPhase task .out with lock := s.lock.release }
    else none
  | .finish task =>
    if s.phase task = .inside then
      if 0 ≤ s.suffix then
        some { s.setPhase task .reading with lock := s.lock.release, suffix := -1 }
      else some { s.setPhase task .out with lock := s.lock.release }
    else none

def system (n : ℕ) : System ResizeThread ResizeEvent := ⟨(· = new), next n⟩

def Exclusive (s : ResizeThread) : Prop := ∀ t u, s.phase t = .inside → s.phase u = .inside → t = u

/-- A lock that nobody holds lets every task pass. -/
def Free (n : ℕ) (s : ResizeThread) : Prop := s.lock.count = 0 → ∀ t < n, s.lock.admits t = true

/-- The owner is the task that is inside. -/
structure Held (s : ResizeThread) : Prop where
  owned : ∀ t, s.phase t = .inside → s.lock = ⟨t, 1⟩
  idle : (∀ t, s.phase t ≠ .inside) → s.lock.count = 0

variable {n : ℕ} {s s' : ResizeThread}

theorem Held.exclusive (h : s.Held) : s.Exclusive := by
  intro t u ht hu
  have := (h.owned t ht).symm.trans (h.owned u hu)
  simpa using congrArg ResizeLock.owner this

theorem held_new : new.Held := ⟨fun _ h => (by cases h), fun _ => rfl⟩

variable {task : ℕ} {p : ResizePhase} {e : ResizeEvent}

theorem Held.setPhase_outside (h : s.Held) (hp : p ≠ .inside) (ht : s.phase task ≠ .inside) :
    (s.setPhase task p).Held := by
  have hphase : ∀ u, (s.setPhase task p).phase u = .inside ↔ s.phase u = .inside := by
    intro u
    simp only [setPhase]
    by_cases hu : u = task
    · simp [hu, hp, ht]
    · rw [update_of_ne hu]
  exact ⟨fun u hu => h.owned u ((hphase u).mp hu),
    fun hout => h.idle fun u hu => hout u ((hphase u).mpr hu)⟩

theorem Held.enter (h : s.Held) (hw : s.phase task = .waiting) (ha : s.lock.admits task = true) :
    Held { s.setPhase task .inside with lock := s.lock.acquire task } := by
  -- an owner inside would be this task, which still waits
  have hout : ∀ u, s.phase u ≠ .inside := by
    intro u hu
    simp only [ResizeLock.admits, h.owned u hu, decide_eq_true_eq] at ha
    have : u = task := by omega
    rw [this, hw] at hu
    cases hu
  refine ⟨fun u hu => ?_, fun hno => absurd (update_self ..) (hno task)⟩
  by_cases hut : u = task
  · simp [ResizeLock.acquire, h.idle hout, hut]
  · simp only [setPhase, update_of_ne hut] at hu
    exact absurd hu (hout u)

theorem Held.release_eq (h : s.Held) (ht : s.phase task = .inside) : s.lock.release = ⟨0, 0⟩ := by
  rw [h.owned task ht]
  rfl

theorem Held.leave (h : s.Held) (ht : s.phase task = .inside) (hp : p ≠ .inside) (suffix : ℤ) :
    Held { s.setPhase task p with lock := s.lock.release, suffix := suffix } := by
  refine ⟨fun u hu => ?_, fun _ => by simp [h.release_eq ht]⟩
  by_cases hut : u = task
  · simp only [setPhase, hut, update_self] at hu
    exact absurd hu hp
  · simp only [setPhase, update_of_ne hut] at hu
    exact absurd (h.exclusive u task hu ht) hut

theorem next_lock (hn : next n s e = some s') :
    s'.lock = s.lock ∨ (∃ t, s'.lock = s.lock.acquire t) ∨
      ((∃ t, (e = .returnEarly t ∨ e = .finish t) ∧ s.phase t = .inside) ∧
        s'.lock = s.lock.release) := by
  cases e with
  | call t | read t =>
    obtain ⟨-, ⟨⟩⟩ := ite_none_right_eq_some.mp hn
    exact .inl rfl
  | turn t =>
    simp only [next] at hn
    split_ifs at hn
    · cases hn
      exact .inr (.inl ⟨t, rfl⟩)
    · cases hn
      exact .inl rfl
  | noSlot t v =>
    simp only [next] at hn
    split_ifs at hn <;> cases hn <;> exact .inl rfl
  | returnEarly t =>
    obtain ⟨hi, ⟨⟩⟩ := ite_none_right_eq_some.mp hn
    exact .inr (.inr ⟨⟨t, .inl rfl, hi⟩, rfl⟩)
  | finish t =>
    simp only [next] at hn
    split_ifs at hn with hi <;> cases hn <;> exact .inr (.inr ⟨⟨t, .inr rfl, hi⟩, rfl⟩)

theorem Held.next (h : s.Held) (hn : next n s e = some s') : s'.Held := by
  cases e with
  | call t =>
    obtain ⟨hc, ⟨⟩⟩ := ite_none_right_eq_some.mp hn
    exact h.setPhase_outside (by decide) (by rw [hc.2]; decide)
  | read t =>
    obtain ⟨hc, ⟨⟩⟩ := ite_none_right_eq_some.mp hn
    exact h.setPhase_outside (by decide) (by rw [hc]; decide)
  | turn t =>
    simp only [ResizeThread.next] at hn
    split_ifs at hn with hw ha
    · cases hn
      exact h.enter hw ha
    · cases hn
      exact h
  | noSlot t v =>
    simp only [ResizeThread.next] at hn
    split_ifs at hn <;> cases hn <;> exact ⟨h.owned, h.idle⟩
  | returnEarly t =>
    obtain ⟨hi, ⟨⟩⟩ := ite_none_right_eq_some.mp hn
    exact h.leave hi (by decide) s.suffix
  | finish t =>
    simp only [ResizeThread.next] at hn
    split_ifs at hn with hi
    · cases hn
      exact h.leave hi (by decide) (-1)
    · cases hn
      exact h.leave hi (by decide) s.suffix

/-- In every run the lock keeps the tasks apart. -/
theorem exclusive_of_reachable (h : (system n).Reachable s) : s.Exclusive := by
  have hheld : s.Held := h.invariant (P := Held) (fun s (hs : s = new) => hs ▸ held_new)
    fun _ _ _ h hn => h.next hn
  exact hheld.exclusive

/-- The step does not leave `resize`, unless the thread has no task but its first. -/
def Kept (n : ℕ) (s : ResizeThread) : ResizeEvent → Prop
  | .returnEarly task | .finish task => s.phase task = .inside → n ≤ 1
  | _ => True

/-- Nobody has stored 0 into the lock, or there is only task 0. -/
def Sound (n : ℕ) (s : ResizeThread) : Prop :=
  s.Held ∧ (s.lock.count = 0 → s.lock.owner = -1 ∨ (n ≤ 1 ∧ s.lock.owner = 0))

theorem Sound.free (h : s.Sound n) : s.Free n := by
  intro hc t ht
  rw [ResizeLock.admits, decide_eq_true_iff]
  rcases h.2 hc with ho | ⟨hn, ho⟩
  · exact .inl ho
  · exact .inr (by omega)

theorem Sound.next (h : s.Sound n) (hk : s.Kept n e) (hn : next n s e = some s') : s'.Sound n := by
  refine ⟨h.1.next hn, fun hc => ?_⟩
  rcases next_lock hn with hl | ⟨t, hl⟩ | ⟨⟨t, he, hi⟩, hl⟩
  · rw [hl] at hc ⊢
    exact h.2 hc
  · rw [hl] at hc
    simp [ResizeLock.acquire] at hc
  · rw [hl, h.1.release_eq hi]
    rcases he with rfl | rfl <;> exact .inr ⟨hk hi, rfl⟩

theorem Held.le_one_of_free (h : s.Held) {t : ℕ} (hi : s.phase t = .inside)
    (hl : s'.lock = s.lock.release) (hf : s'.Free n) : n ≤ 1 := by
  by_contra hn
  rw [h.release_eq hi] at hl
  have := hf (by rw [hl]) 1 (by omega)
  simp [hl, ResizeLock.admits] at this

theorem Sound.kept (h : s.Sound n)
    (hf : ∀ s', ResizeThread.next n s e = some s' → s'.Exclusive ∧ s'.Free n) : s.Kept n e := by
  cases e with
  | call | read | turn | noSlot => trivial
  | returnEarly t =>
    intro hi
    refine h.1.le_one_of_free hi rfl (hf { s.setPhase t .out with lock := s.lock.release } ?_).2
    simp [ResizeThread.next, hi]
  | finish t =>
    intro hi
    by_cases hs : 0 ≤ s.suffix
    · refine h.1.le_one_of_free hi rfl (hf
        { s.setPhase t .reading with lock := s.lock.release, suffix := -1 } ?_).2
      simp [ResizeThread.next, hi, hs]
    · refine h.1.le_one_of_free hi rfl (hf { s.setPhase t .out with lock := s.lock.release } ?_).2
      simp [ResizeThread.next, hi, hs]

/-- The lock is exclusive and released exactly when no task of several leaves `resize`. -/
theorem along_released_iff (n : ℕ) (events : List ResizeEvent) :
    (system n).Along (fun s => s.Exclusive ∧ s.Free n) new events ↔
      (system n).AllSteps (Kept n) new events :=
  System.along_iff_allSteps (I := Sound n) (fun _ h => ⟨h.1.exclusive, h.free⟩)
    (fun _ _ _ h hk hn => h.next hk hn) (fun _ _ h hf => h.kept hf)
    ⟨held_new, fun _ => .inl rfl⟩ events

/-- One resize of task 1 returns, and task 1 itself no longer passes the loop. -/
theorem not_free_secondResize :
    ∃ s, (system 2).exec new [.call 1, .read 1, .turn 1, .finish 1] = some s ∧
      s.lock = ⟨0, 0⟩ ∧ s.lock.admits 1 = false ∧ ¬ s.Free 2 := by
  refine ⟨_, rfl, by decide, by decide, fun hf => ?_⟩
  exact absurd (hf (by decide) 1 (by decide)) (by decide)

end ResizeThread

end Fusa.Table

import Fusa.Smart.TaskPool

/-! The queues of a `TaskPool` stay consistent whatever its tasks do. -/
namespace Fusa.Smart.TaskPool
open Transition Requests DList List Option

variable {s s' : TaskPool} {R B : List ℕ} {id prev : ℕ}

/-- The active task and the flags that make a task live are the same. -/
structure Rest (s s' : TaskPool) : Prop where
  active : s'.active = s.active
  init : ∀ id, (s'.task id).init = (s.task id).init
  exit : ∀ id, (s'.task id).exit = (s.task id).exit

theorem Rest.refl (s : TaskPool) : Rest s s := ⟨rfl, fun _ => rfl, fun _ => rfl⟩

theorem Rest.trans {s'' : TaskPool} (h : Rest s s') (h' : Rest s' s'') : Rest s s'' :=
  ⟨h'.active.trans h.active, fun id => (h'.init id).trans (h.init id),
    fun id => (h'.exit id).trans (h.exit id)⟩

theorem Rest.live (h : Rest s s') (id : ℕ) : s'.Live id ↔ s.Live id := by
  unfold Live
  rw [h.init, h.exit]

theorem liveCount_congr (h : ∀ id, s'.Live id ↔ s.Live id) : s'.liveCount = s.liveCount := by
  refine Finset.sum_congr rfl fun i hi => if_congr ?_ rfl rfl
  have hlt := (Finset.mem_Ico.mp hi).2
  have := h i
  unfold Live at this
  simpa [hlt] using this

theorem Rest.liveCount (h : Rest s s') : s'.liveCount = s.liveCount := liveCount_congr h.live

theorem task_setTask (s : TaskPool) (id i : ℕ) (t : Task) :
    (s.setTask id t).task i = if i = id then t else s.task i := by
  by_cases hi : i = id
  · rw [hi, if_pos rfl]
    exact Function.update_self ..
  · rw [if_neg hi]
    exact Function.update_of_ne hi ..

variable {t : Task} {n : ℤ} {L : Links Node}

theorem live_setTask {i : ℕ} (hi : i ≠ id) : (s.setTask id t).Live i ↔ s.Live i := by
  unfold Live
  rw [task_setTask, if_neg hi]

theorem Rest.setTask (hi : t.init = (s.task id).init) (he : t.exit = (s.task id).exit) :
    Rest s (s.setTask id t) := by
  refine ⟨rfl, fun i => ?_, fun i => ?_⟩
  · rw [task_setTask]
    split_ifs with h
    · rw [hi, h]
    · rfl
  · rw [task_setTask]
    split_ifs with h
    · rw [he, h]
    · rfl

/-- What holds of queues and flags also while tasks are moved between the queues. -/
structure Base (s : TaskPool) (R B : List ℕ) : Prop where
  queues : Queues s.links (pair R B)
  blocked : ∀ id, (s.task id).blocked = true ↔ id ∈ B
  nrRunning : s.nrRunning = s.liveCount
  member : ∀ id, id ∈ R ∨ id ∈ B → s.Live id
  main : s.Live 0
  mainOut : 0 ∉ B

section
variable (h : Base s R B)
include h

/-- The number of blocked tasks and the calls of `schedule` are counted apart. -/
theorem Base.setCount : Base { s with nrBlocking := n } R B :=
  { h with }

theorem Base.setSchedule {n : ℕ} : Base { s with nrSchedule := n } R B :=
  { h with }

theorem Base.setActive {a : Option ℕ} : Base { s with active := a } R B :=
  { h with }

theorem Base.update {R' B' : List ℕ} (hQ : Queues L (pair R' B')) (hb : t.blocked = true ↔ id ∈ B')
    (hmem : ∀ i, i ≠ id → (i ∈ R' ↔ i ∈ R) ∧ (i ∈ B' ↔ i ∈ B))
    (hlive : id ∈ R' ∨ id ∈ B' ∨ id = 0 → t.init = true ∧ t.exit = false) (hmain : 0 ∉ B')
    (hn : n = (s.setTask id t).liveCount) (hid : id < kMaxTasksPerThread) :
    Base { s.setTask id t with links := L, nrRunning := n } R' B' := by
  have hself : id ∈ R' ∨ id ∈ B' ∨ id = 0 → (s.setTask id t).Live id := by
    intro hi
    refine ⟨hid, ?_⟩
    rw [task_setTask, if_pos rfl]
    exact hlive hi
  refine ⟨hQ, fun i => ?_, hn, fun i hi => ?_, ?_, hmain⟩
  · change ((s.setTask id t).task i).blocked = true ↔ _
    rw [task_setTask]
    split_ifs with hi
    · rwa [hi]
    · rw [(hmem i hi).2]
      exact h.blocked i
  · by_cases hii : i = id
    · subst hii
      exact hself (hi.imp_right .inl)
    · rw [(hmem i hii).1, (hmem i hii).2] at hi
      exact (live_setTask hii).mpr (h.member i hi)
  · by_cases hz : id = 0
    · subst hz
      exact hself (.inr (.inr rfl))
    · exact (live_setTask (Ne.symm hz)).mpr h.main

end

/-- Between operations the active task is in no queue, but the main task at first. -/
structure Inv (s : TaskPool) (R B : List ℕ) : Prop extends Base s R B where
  nrBlocking : s.nrBlocking = B.length
  queued : ∀ id, s.Live id → s.active ≠ some id → id ∈ R ∨ id ∈ B
  active : ∀ id, s.active = some id → s.Live id ∧ id ∉ B ∧ (id ∈ R → id = 0 ∧ R.head? = some 0)

theorem Inv.consistent (h : Inv s R B) : Consistent s R B :=
  ⟨h.queues, h.blocked, h.nrBlocking, h.nrRunning, h.queued⟩

/-! ### Tasks that stop waiting -/

theorem Base.unblock {xs ys : List ℕ} (h : Base s R (xs ++ id :: ys))
    (hL : Queues L (pair R (xs ++ ys))) :
    ∃ s', unblock { s with links := L } id = some s' ∧ Base s' (R ++ [id]) (xs ++ ys) ∧
      Rest s s' ∧ s'.nrBlocking = s.nrBlocking := by
  have hnd : (xs ++ id :: ys).Nodup := h.queues.nodup .blocking
  have hout : id ∉ xs ++ ys := (nodup_cons.mp (nodup_middle.mp hnd)).1
  have hR : id ∉ R := fun hR => h.queues.not_mem_blocking hR (by simp)
  have hrest : Rest s (s.setTask id { s.task id with blocked := false }) := .setTask rfl rfl
  obtain ⟨L', he, hQ⟩ := hL.enqueue (not_mem_pair hR hout) .running
  rw [update_pair_running] at hQ
  have hb : Base { s.setTask id { s.task id with blocked := false } with links := L' }
      (R ++ [id]) (xs ++ ys) := by
    have hlive := h.member id (.inr (by simp))
    refine h.update hQ ?_ (fun i hi => ?_) (fun _ => hlive.2) ?_ ?_ hlive.1
    · simp [hout]
    · grind
    · have := h.mainOut
      grind
    · exact h.nrRunning.trans (congrArg _ hrest.liveCount.symm)
  refine ⟨_, ?_, hb, ⟨hrest.active, hrest.init, hrest.exit⟩, rfl⟩
  change (DList.enqueue L _ _).bind _ = _
  rw [he]
  rfl

/-- The queue `blocking` is shorter than the loop of `notify_all` may be long. -/
theorem Base.length_lt (h : Base s R B) : B.length < kMaxTasksPerThread := by
  have hnd : B.Nodup := h.queues.nodup .blocking
  have hsub : B.toFinset ⊆ Finset.Ico 1 kMaxTasksPerThread := by
    intro i hi
    have hB := mem_toFinset.mp hi
    have hlive := h.member i (.inr hB)
    have hne : i ≠ 0 := fun he => h.mainOut (he ▸ hB)
    exact Finset.mem_Ico.mpr ⟨by omega, hlive.1⟩
  have hcard := Finset.card_le_card hsub
  rw [toFinset_card_of_nodup hnd, Nat.card_Ico] at hcard
  unfold kMaxTasksPerThread at hcard ⊢
  omega

theorem Base.notifyLoop (h : Base s R B) {n : ℕ} (hn : B.length < n) :
    ∃ s', notifyLoop n s = some s' ∧ Base s' (R ++ B) [] ∧ Rest s s' := by
  induction B generalizing n s R with
  | nil =>
    cases n with
    | zero => exact absurd hn (Nat.not_lt_zero _)
    | succ n =>
      refine ⟨s, ?_, by rw [append_nil]; exact h, .refl s⟩
      rw [TaskPool.notifyLoop, h.queues.dequeue_nil rfl]
      rfl
  | cons id B ih =>
    cases n with
    | zero => exact absurd hn (Nat.not_lt_zero _)
    | succ n =>
      have hl : pair R (id :: B) .blocking = id :: B := rfl
      obtain ⟨L, hd, hL⟩ := h.queues.dequeue_cons hl
      rw [update_pair_blocking] at hL
      have h' : Base s R ([] ++ id :: B) := h
      obtain ⟨s₁, he, hb, hr, -⟩ := h'.unblock hL
      obtain ⟨s₂, hloop, hb₂, hr₂⟩ := ih hb (Nat.lt_of_succ_lt_succ hn)
      refine ⟨s₂, ?_, ?_, hr.trans hr₂⟩
      · rw [TaskPool.notifyLoop, hd]
        dsimp only [bind_eq_bind, bind_some]
        rwa [he]
      · rwa [append_assoc] at hb₂

theorem Base.notifyAll (h : Base s R B) (hn : s.nrBlocking = B.length) :
    ∃ s', notifyAll s = some s' ∧ Base s' (R ++ B) [] ∧ Rest s s' ∧ s'.nrBlocking = 0 := by
  unfold TaskPool.notifyAll
  by_cases hz : s.nrBlocking = 0
  · obtain rfl : B = [] := by
      rw [hz] at hn
      exact eq_nil_of_length_eq_zero (by omega)
    rw [if_pos hz, append_nil]
    exact ⟨s, rfl, h, .refl s, hz⟩
  · obtain ⟨s', hloop, hb, hr⟩ := h.notifyLoop h.length_lt
    rw [if_neg hz, hloop]
    exact ⟨_, rfl, hb.setCount, ⟨hr.active, hr.init, hr.exit⟩, rfl⟩

theorem Inv.of_unblocked {R' B' : List ℕ} (h : Inv s R B) (hb : Base s' R' B') (hr : Rest s s')
    (hn : s'.nrBlocking = B'.length) (ids : List ℕ) (hR : R' = R ++ ids)
    (hids : ∀ id ∈ ids, id ∈ B) (hB : ∀ id, id ∈ B ↔ id ∈ B' ∨ id ∈ ids) : Inv s' R' B' := by
  refine ⟨hb, hn, fun i hi hne => ?_, fun a ha => ?_⟩
  · rw [hr.active] at hne
    rcases h.queued i ((hr.live i).mp hi) hne with hi | hi
    · exact .inl (by rw [hR]; exact mem_append_left _ hi)
    · rcases (hB i).mp hi with hi | hi
      · exact .inr hi
      · exact .inl (by rw [hR]; exact mem_append_right _ hi)
  · rw [hr.active] at ha
    obtain ⟨hlive, hout, hhead⟩ := h.active a ha
    refine ⟨(hr.live a).mpr hlive, fun hB' => hout ((hB a).mpr (.inl hB')), fun hR' => ?_⟩
    rw [hR] at hR' ⊢
    rcases mem_append.mp hR' with hR' | hids'
    · obtain ⟨h0, hh⟩ := hhead hR'
      refine ⟨h0, ?_⟩
      rw [List.head?_append, hh]
      rfl
    · exact absurd (hids a hids') hout

theorem Inv.notifyAll (h : Inv s R B) : ∃ s' R' B', notifyAll s = some s' ∧ Inv s' R' B' := by
  obtain ⟨s₁, he, hb, hr, hn⟩ := h.toBase.notifyAll h.nrBlocking
  exact ⟨s₁, _, _, he, h.of_unblocked hb hr hn B rfl (fun _ hi => hi) (by simp)⟩

theorem Inv.notify (h : Inv s R B) : ∃ s' R' B', notify s = some s' ∧ Inv s' R' B' := by
  unfold TaskPool.notify
  by_cases hz : s.nrBlocking = 0
  · rw [if_pos hz]
    exact ⟨s, R, B, rfl, h⟩
  · rw [if_neg hz]
    cases B with
    | nil => exact absurd h.nrBlocking hz
    | cons id B =>
      have hl : pair R (id :: B) .blocking = id :: B := rfl
      obtain ⟨L, hd, hL⟩ := h.queues.dequeue_cons hl
      rw [update_pair_blocking] at hL
      have h' : Base s R ([] ++ id :: B) := h.toBase
      obtain ⟨s₁, he, hb, hr, hn⟩ := h'.unblock hL
      rw [hd]
      dsimp only [bind_eq_bind, bind_some]
      rw [he]
      refine ⟨_, R ++ [id], B, rfl, h.of_unblocked hb.setCount ⟨hr.active, hr.init, hr.exit⟩ ?_
        [id] rfl (by simp) fun i => ?_⟩
      · have := h.nrBlocking
        simp only [length_cons] at this ⊢
        omega
      · simp [or_comm]

theorem Inv.notifyTask (h : Inv s R B) (id : ℕ) :
    ∃ s' R' B', notifyTask s id = some s' ∧ Inv s' R' B' := by
  unfold TaskPool.notifyTask
  split_ifs with hc
  · obtain ⟨xs, ys, rfl⟩ := append_of_mem ((h.blocked id).mp hc.2)
    have hl : pair R (xs ++ id :: ys) .blocking = xs ++ id :: ys := rfl
    obtain ⟨L, hd, hL⟩ := h.queues.detach hl
    rw [update_pair_blocking] at hL
    obtain ⟨s₁, he, hb, hr, hn⟩ := h.toBase.unblock hL
    rw [hd]
    dsimp only [bind_eq_bind, bind_some]
    rw [he]
    refine ⟨_, R ++ [id], xs ++ ys, rfl, h.of_unblocked hb.setCount
      ⟨hr.active, hr.init, hr.exit⟩ ?_ [id] rfl (by simp) fun i => ?_⟩
    · have := h.nrBlocking
      simp only [length_append, length_cons] at this ⊢
      push_cast at this ⊢
      omega
    · simp only [mem_append, mem_cons, not_mem_nil, or_false]
      tauto
  · exact ⟨s, R, B, rfl, h⟩

end Fusa.Smart.TaskPool

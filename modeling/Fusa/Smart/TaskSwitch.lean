import Fusa.Lib.Bump
import Fusa.Smart.TaskQueues

/-! The switches between tasks, and the queues of a `TaskPool` in every run. -/
namespace Fusa.Smart.TaskPool
open Transition Requests DList List Option

variable {s : TaskPool} {R B : List ℕ} {id prev : ℕ}

/-- The forced unblock appends the queue `blocking` to `running`, or nothing happens. -/
theorem Base.schedule (h : Base s R B) (hn : s.nrBlocking = B.length) (prev : ℕ) (reuse : Bool) :
    ∃ s₁ R₁ B₁, schedule s prev reuse = switch s₁ prev reuse ∧ Base s₁ R₁ B₁ ∧
      s₁.nrBlocking = B₁.length ∧ Rest s s₁ ∧ (R₁ = R ∧ B₁ = B ∨ R₁ = R ++ B ∧ B₁ = []) := by
  unfold TaskPool.schedule
  split_ifs
  · obtain ⟨s₁, he, hb, hr, hz⟩ := Base.notifyAll (h.setSchedule (n := 0)) hn
    refine ⟨s₁, _, _, ?_, hb, by simpa using hz, ⟨hr.active, hr.init, hr.exit⟩, .inr ⟨rfl, rfl⟩⟩
    rw [he]
    rfl
  · exact ⟨_, R, B, rfl, h.setSchedule, hn, ⟨rfl, fun _ => rfl, fun _ => rfl⟩, .inl ⟨rfl, rfl⟩⟩

variable {R' : List ℕ}

theorem Base.dequeue (h : Base s (id :: R') B) :
    ∃ L, s.dequeue .running = some (some id, { s with links := L }) ∧
      Base { s with links := L } R' B ∧ id ∉ R' ∧ id ∉ B := by
  have hl : pair (id :: R') B .running = id :: R' := rfl
  obtain ⟨L, hd, hL⟩ := h.queues.dequeue_cons hl
  rw [update_pair_running] at hL
  have hnd : (id :: R').Nodup := h.queues.nodup .running
  refine ⟨L, hd, ⟨hL, h.blocked, h.nrRunning, fun i hi => h.member i ?_, h.main, h.mainOut⟩,
    (nodup_cons.mp hnd).1, h.queues.not_mem_blocking mem_cons_self⟩
  exact hi.imp_left (mem_cons_of_mem _)

theorem Base.enqueue (h : Base s R B) (hlive : s.Live id) (hR : id ∉ R) (hB : id ∉ B) :
    ∃ L, s.enqueue .running id = some { s with links := L } ∧
      Base { s with links := L } (R ++ [id]) B := by
  obtain ⟨L, he, hQ⟩ := h.queues.enqueue (not_mem_pair hR hB) .running
  rw [update_pair_running] at hQ
  refine ⟨L, ?_, hQ, h.blocked, h.nrRunning, fun i hi => ?_, h.main, h.mainOut⟩
  · rw [TaskPool.enqueue, he]
    rfl
  · rcases hi with hi | hi
    · rcases mem_append.mp hi with hi | hi
      · exact h.member i (.inl hi)
      · rwa [mem_singleton.mp hi]
    · exact h.member i (.inr hi)

theorem Base.ontop (h : Base s R B) (prev : ℕ) :
    Base (ontop s prev) R B ∧ (∀ i, (ontop s prev).Live i ↔ s.Live i) ∧
      (ontop s prev).active = s.active ∧ (ontop s prev).nrBlocking = s.nrBlocking := by
  unfold TaskPool.ontop
  split_ifs with hx
  · have hlive : ∀ i, (s.setTask prev { s.task prev with init := false }).Live i ↔ s.Live i := by
      intro i
      unfold Live
      rw [task_setTask]
      split_ifs with hi
      · simp [hi, hx]
      · rfl
    refine ⟨⟨h.queues, fun i => ?_, ?_, ?_, ?_, h.mainOut⟩, hlive, rfl, rfl⟩
    · rw [task_setTask]
      split_ifs with hi
      · rw [hi]
        exact h.blocked prev
      · exact h.blocked i
    · rw [liveCount_congr hlive]
      exact h.nrRunning
    · exact fun i hi => (hlive i).mpr (h.member i hi)
    · exact (hlive 0).mpr h.main
  · exact ⟨h, fun _ => Iff.rfl, rfl, rfl⟩

theorem Base.take (h : Base s R B) (hn : s.nrBlocking = B.length) (hlive : s.Live id)
    (hR : id ∉ R) (hB : id ∉ B) (hall : ∀ i, s.Live i → i ≠ id → i ∈ R ∨ i ∈ B) (prev : ℕ) :
    Inv (TaskPool.ontop { s with active := some id } prev) R B := by
  obtain ⟨hb, hl, ha, hc⟩ := (h.setActive (a := some id)).ontop prev
  refine ⟨hb, hc.trans hn, fun i hi hne => hall i ((hl i).mp hi) ?_, fun i hi => ?_⟩
  · rintro rfl
    exact hne ha
  · rw [ha] at hi
    cases hi
    exact ⟨(hl id).mpr hlive, hB, fun hmem => absurd hmem hR⟩

theorem Inv.queued_of_ne (h : Inv s R B) (ha : s.active = some prev) {i : ℕ} (hi : s.Live i)
    (hne : i ≠ prev) : i ∈ R ∨ i ∈ B := by
  refine h.queued i hi ?_
  rw [ha]
  exact fun hact => hne (Option.some.inj hact).symm

theorem Inv.switch (h : Inv s R B) (ha : s.active = some prev) :
    ∃ s' R' B', TaskPool.switch s prev true = some s' ∧ Inv s' R' B' := by
  obtain ⟨hlive, hB, hhead⟩ := h.active prev ha
  unfold TaskPool.switch
  cases R with
  | nil =>
    obtain ⟨L, he, hb⟩ := h.toBase.enqueue hlive not_mem_nil hB
    rw [h.queues.dequeue_nil rfl]
    simp only [bind_eq_bind, bind_some, reduceCtorEq, if_false, if_true, he]
    refine ⟨_, [prev], B, rfl, hb.setActive, h.nrBlocking, fun i hi _ => ?_,
      fun i hi => by cases hi⟩
    by_cases hp : i = prev
    · exact .inl (by simp [hp])
    · exact (h.queued_of_ne ha hi hp).imp_left (by simp)
  | cons id R =>
    obtain ⟨L, hd, hb, hR, hidB⟩ := h.toBase.dequeue
    rw [hd]
    have hout : prev ∉ R := by
      intro hp
      obtain ⟨rfl, hh⟩ := hhead (mem_cons_of_mem _ hp)
      cases hh
      exact hR hp
    by_cases hp : id = prev
    · simp only [bind_eq_bind, bind_some, hp, if_true]
      refine ⟨_, R, B, rfl, hb, h.nrBlocking, fun i hi hne => ?_, fun i hi => ?_⟩
      · rcases h.queued i hi hne with hi' | hi'
        · rcases mem_cons.mp hi' with rfl | hi'
          · exact absurd (ha.trans (congrArg some hp.symm)) hne
          · exact .inl hi'
        · exact .inr hi'
      · obtain rfl := Option.some.inj (ha.symm.trans hi)
        exact ⟨hlive, hB, fun hmem => absurd hmem hout⟩
    · obtain ⟨L', he, hb'⟩ := hb.enqueue hlive hout hB
      simp only [bind_eq_bind, bind_some, Option.some.injEq, hp, if_false, if_true, he]
      have hid := h.member id (.inl mem_cons_self)
      refine ⟨_, R ++ [prev], B, rfl, hb'.take h.nrBlocking hid ?_ hidB ?_ prev⟩
      · simp [hR, hp]
      · intro i hi hne
        by_cases hip : i = prev
        · exact .inl (by simp [hip])
        · rcases h.queued_of_ne ha hi hip with hi' | hi'
          · exact .inl (by simpa [hne, hip] using hi')
          · exact .inr hi'

theorem Base.leave (h : Base s (id :: R') B) (hn : s.nrBlocking = B.length) (hne : id ≠ prev)
    (hall : ∀ i, s.Live i → i ∈ id :: R' ∨ i ∈ B) :
    ∃ s', switch s prev false = some s' ∧ Inv s' R' B := by
  obtain ⟨L, hd, hb, hR, hB⟩ := h.dequeue
  unfold switch
  rw [hd]
  simp only [bind_eq_bind, bind_some, Option.some.injEq, hne, if_false, Bool.false_eq_true]
  have hid := h.member id (.inl mem_cons_self)
  refine ⟨_, rfl, hb.take hn hid hR hB (fun i hi hne => ?_) prev⟩
  exact (hall i hi).imp_left (mem_of_ne_of_mem hne)

theorem Inv.schedule (h : Inv s R B) (ha : s.active = some prev) :
    ∃ s' R' B', schedule s prev true = some s' ∧ Inv s' R' B' := by
  obtain ⟨s₁, R₁, B₁, he, hb, hn, hr, hRB⟩ := h.toBase.schedule h.nrBlocking prev true
  have h₁ : Inv s₁ R₁ B₁ := by
    rcases hRB with ⟨rfl, rfl⟩ | ⟨rfl, rfl⟩
    · exact h.of_unblocked hb hr hn [] (by simp) (by simp) (by simp)
    · exact h.of_unblocked hb hr hn B rfl (fun _ hi => hi) (by simp)
  rw [he]
  exact h₁.switch (hr.active.trans ha)

/-- A forced unblock puts nothing before the first task of `running`. -/
theorem Base.scheduleAway (h : Base s (id :: R') B) (hn : s.nrBlocking = B.length) (hne : id ≠ prev)
    (hall : ∀ i, s.Live i → i ∈ id :: R' ∨ i ∈ B) :
    ∃ s' R' B', TaskPool.schedule s prev false = some s' ∧ Inv s' R' B' := by
  obtain ⟨s₁, R₁, B₁, he, hb, hn₁, hr, hRB⟩ := h.schedule hn prev false
  rw [he]
  rcases hRB with ⟨rfl, rfl⟩ | ⟨rfl, rfl⟩
  · obtain ⟨s', hs, hinv⟩ := hb.leave hn₁ hne fun i hi => hall i ((hr.live i).mp hi)
    exact ⟨s', _, _, hs, hinv⟩
  · have hb' : Base s₁ (id :: (R' ++ B)) [] := hb
    obtain ⟨s', hs, hinv⟩ := hb'.leave hn₁ hne fun i hi => .inl <| by
      have := hall i ((hr.live i).mp hi)
      simp only [mem_cons, mem_append] at this ⊢
      tauto
    exact ⟨s', _, _, hs, hinv⟩

theorem Inv.running_cons (h : Inv s R B) (ha : s.active = some prev) (hp : prev ≠ 0) :
    ∃ id R', R = id :: R' ∧ id ≠ prev ∧ prev ∉ R := by
  have hne : s.active ≠ some 0 := by
    rw [ha]
    exact fun he => hp (Option.some.inj he)
  have hmain : 0 ∈ R := (h.queued 0 h.main hne).resolve_right h.mainOut
  have hout : prev ∉ R := fun hR => hp ((h.active prev ha).2.2 hR).1
  cases R with
  | nil => cases hmain
  | cons id R' => exact ⟨id, R', rfl, fun he => hout (he ▸ mem_cons_self), hout⟩

/-! ### Operations -/

theorem liveCount_setTask (s : TaskPool) {id : ℕ} (h0 : id ≠ 0) (hid : id < kMaxTasksPerThread)
    (t : Task) : (s.setTask id t).liveCount +
        (if (s.task id).init = true ∧ (s.task id).exit = false then 1 else 0) =
      s.liveCount + if t.init = true ∧ t.exit = false then 1 else 0 := by
  have hmem : id ∈ Finset.Ico 1 kMaxTasksPerThread := Finset.mem_Ico.mpr ⟨by omega, hid⟩
  exact Cover.sum_update _ (fun _ (t : Task) => if t.init = true ∧ t.exit = false then 1 else 0)
    s.task hmem t

theorem freeSlot_some (h : s.freeSlot = some id) :
    id ≠ 0 ∧ id < kMaxTasksPerThread ∧ (s.task id).init = false := by
  have hfree := List.find?_some h
  obtain ⟨h1, h2⟩ := mem_range'_1.mp (mem_of_find?_eq_some h)
  refine ⟨by omega, ?_, by simpa using hfree⟩
  omega

section
variable (h : Inv s R B) (ha : s.active = some prev)
include h ha

theorem Inv.spawn : ∃ s' R' B', spawn s prev = some s' ∧ Inv s' R' B' := by
  unfold TaskPool.spawn
  cases hf : s.freeSlot with
  | none => exact h.schedule ha
  | some id =>
    obtain ⟨h0, hid, hinit⟩ := freeSlot_some hf
    have hdead : ¬ s.Live id := fun hl => by simp [hl.2.1] at hinit
    have hne : ∀ i, s.Live i → i ≠ id := fun i hi he => hdead (he ▸ hi)
    have hR : id ∉ R := fun hmem => hdead (h.member id (.inl hmem))
    have hB : id ∉ B := fun hmem => hdead (h.member id (.inr hmem))
    have hcount := liveCount_setTask s h0 hid ⟨true, false, false⟩
    rw [if_neg (by simp [hinit]), if_pos ⟨rfl, rfl⟩] at hcount
    obtain ⟨L, he, hQ⟩ := h.queues.enqueue (not_mem_pair hR hB) .running
    rw [update_pair_running] at hQ
    have hb : Base { s.setTask id ⟨true, false, false⟩ with
        links := L, nrRunning := s.nrRunning + 1 } (R ++ [id]) B := by
      refine h.update hQ (by simp [hB]) (fun i hi => ⟨by simp [hi], Iff.rfl⟩) (fun _ => ⟨rfl, rfl⟩)
        h.mainOut ?_ hid
      rw [h.nrRunning]
      omega
    refine ⟨_, R ++ [id], B, ?_, hb, h.nrBlocking, fun i hi hact => ?_, fun a hact => ?_⟩
    · change (DList.enqueue s.links _ _).bind _ = _
      rw [he]
      rfl
    · by_cases hii : i = id
      · exact .inl (by simp [hii])
      · exact (h.queued i ((live_setTask hii).mp hi) hact).imp_left (mem_append_left _)
    · obtain ⟨hl, hout, hhead⟩ := h.active a hact
      refine ⟨(live_setTask (hne a hl)).mpr hl, hout, fun hmem => ?_⟩
      rcases mem_append.mp hmem with hmem | hmem
      · obtain ⟨hz, hh⟩ := hhead hmem
        exact ⟨hz, by rw [List.head?_append, hh]; rfl⟩
      · exact absurd (mem_singleton.mp hmem) (hne a hl)

theorem Inv.wait : ∃ s' R' B', wait s prev = some s' ∧ Inv s' R' B' := by
  unfold TaskPool.wait
  by_cases hp : prev = 0
  · rw [if_pos hp]
    exact ⟨s, R, B, rfl, h⟩
  · obtain ⟨hlive, hB, -⟩ := h.active prev ha
    obtain ⟨id, R', rfl, hne, hR⟩ := h.running_cons ha hp
    have hrest : Rest s (s.setTask prev { s.task prev with blocked := true }) := .setTask rfl rfl
    obtain ⟨L, he, hQ⟩ := h.queues.enqueue (not_mem_pair hR hB) .blocking
    rw [update_pair_blocking] at hQ
    have he' : enqueue (s.setTask prev { s.task prev with blocked := true }) .blocking prev =
        some { s.setTask prev { s.task prev with blocked := true } with links := L } := by
      change (DList.enqueue s.links _ _).bind _ = _
      rw [he]
      rfl
    have hb : Base { s.setTask prev { s.task prev with blocked := true } with links := L }
        (id :: R') (B ++ [prev]) := by
      refine h.update hQ ?_ (fun i hi => ⟨Iff.rfl, ?_⟩) (fun _ => hlive.2) ?_ ?_ hlive.1
      · simp
      · simp [hi]
      · have := h.mainOut
        simp [this, Ne.symm hp]
      · exact h.nrRunning.trans (congrArg _ hrest.liveCount.symm)
    rw [if_neg hp, he']
    refine hb.setCount.scheduleAway ?_ hne fun i hi => ?_
    · simp only [length_append, length_singleton]
      push_cast
      exact congrArg (· + 1) h.nrBlocking
    · by_cases hip : i = prev
      · exact .inr (by simp [hip])
      · exact (h.queued_of_ne ha ((hrest.live i).mp hi) hip).imp_right (mem_append_left _)

theorem Inv.exitTask (hp : prev ≠ 0) : ∃ s' R' B', exitTask s prev = some s' ∧ Inv s' R' B' := by
  unfold TaskPool.exitTask
  rw [if_neg hp]
  obtain ⟨hlive, hB, -⟩ := h.active prev ha
  obtain ⟨id, R', rfl, hne, hR⟩ := h.running_cons ha hp
  have hcount := liveCount_setTask s hp hlive.1 { s.task prev with exit := true }
  rw [if_pos hlive.2, if_neg (by simp)] at hcount
  have hb : Base { s.setTask prev { s.task prev with exit := true } with
      nrRunning := s.nrRunning - 1 } (id :: R') B := by
    refine h.update h.queues (h.blocked prev) (fun i _ => ⟨Iff.rfl, Iff.rfl⟩) (fun hq => ?_)
      h.mainOut ?_ hlive.1
    · exact (hq.elim hR fun hq => hq.elim hB hp).elim
    · rw [h.nrRunning]
      omega
  refine hb.scheduleAway h.nrBlocking hne fun i hi => ?_
  have hip : i ≠ prev := by
    rintro rfl
    have hx := hi.2.2
    rw [task_setTask, if_pos rfl] at hx
    cases hx
  exact h.queued_of_ne ha ((live_setTask hip).mp hi) hip

theorem Inv.next {op : TaskOp} (hop : op = .exit → prev ≠ 0) :
    ∃ s' R' B', next s op = some s' ∧ Inv s' R' B' := by
  unfold TaskPool.next
  rw [ha]
  cases op with
  | spawn => exact h.spawn ha
  | yield => exact h.schedule ha
  | wait => exact h.wait ha
  | notify => exact h.notify
  | notifyTask id => exact h.notifyTask id
  | notifyAll => exact h.notifyAll
  | exit => exact h.exitTask ha (hop rfl)

end

theorem Base.unqueued (n : ℕ) : Base (unqueued n) [] [] := by
  refine ⟨⟨fun q => ?_, fun q q' id hid => ?_⟩, fun i => ?_, ?_, fun i hi => ?_, ?_, by simp⟩
  · have hl : pair [] [] q = [] := by cases q <;> rfl
    rw [hl]
    exact ⟨isChain_pair.mpr ⟨rfl, rfl⟩, by simp⟩
  · cases q <;> cases hid
  · simp [TaskPool.unqueued]
  · have hcount : (TaskPool.unqueued n).liveCount = 0 := by
      refine Finset.sum_eq_zero fun i hi => if_neg fun hlive => ?_
      have hz : i = 0 := of_decide_eq_true hlive.1
      have := (Finset.mem_Ico.mp hi).1
      omega
    rw [hcount]
    rfl
  · rcases hi with hi | hi <;> cases hi
  · exact ⟨by decide, rfl, rfl⟩

theorem Inv.start {n : ℕ} (h : enqueue (unqueued n) .running 0 = some s) : Inv s [0] [] := by
  have hb := Base.unqueued n
  obtain ⟨L, he, hb'⟩ := hb.enqueue hb.main not_mem_nil not_mem_nil
  obtain rfl := Option.some.inj (he.symm.trans h)
  refine ⟨hb', rfl, fun i hi _ => .inl ?_, fun i hi => ?_⟩
  · have hz : i = 0 := of_decide_eq_true hi.2.1
    simp [hz]
  · cases hi
    exact ⟨hb'.main, not_mem_nil, fun _ => ⟨rfl, rfl⟩⟩

theorem inv_of_reachable (h : system.Reachable s) : ∃ R B, Inv s R B := by
  refine h.invariant (P := fun s => ∃ R B, Inv s R B) (fun s hs => ?_) fun s op s' hinv hs => ?_
  · obtain ⟨n, hn⟩ := hs
    exact ⟨_, _, .start hn⟩
  · obtain ⟨R, B, h⟩ := hinv
    have hs' : next s op = some s' := hs
    cases ha : s.active with
    | none =>
      rw [next, ha] at hs'
      cases hs'
    | some prev =>
      have hop : op = .exit → prev ≠ 0 := by
        rintro rfl rfl
        rw [next, ha] at hs'
        cases hs'
      obtain ⟨s₁, R', B', he, hinv⟩ := h.next ha hop
      obtain rfl := Option.some.inj (he.symm.trans hs')
      exact ⟨R', B', hinv⟩

/-- Whatever its tasks do, the queues of a `TaskPool` are consistent, and no link is missing. -/
theorem consistent_of_reachable (h : system.Reachable s) : (∃ R B, Consistent s R B) ∧
      ∀ prev op, s.active = some prev → (op = .exit → prev ≠ 0) → (next s op).isSome := by
  obtain ⟨R, B, hinv⟩ := inv_of_reachable h
  refine ⟨⟨R, B, hinv.consistent⟩, fun prev op ha hop => ?_⟩
  obtain ⟨s', _, _, he, _⟩ := hinv.next ha hop
  rw [he]
  rfl

theorem consistent_twoTasks : ∃ s R B, system.Reachable s ∧ s.active = some 2 ∧
    s.nrBlocking = 1 ∧ Consistent s R B := by
  have hrun : ((enqueue (unqueued 0) .running 0).bind fun s =>
      (system.exec s [.spawn, .spawn, .yield, .yield, .wait]).map fun s =>
        (s.active, s.nrBlocking)) = some (some 2, 1) := by
    decide +kernel
  obtain ⟨s₀, h₀, hrun⟩ := bind_eq_some_iff.mp hrun
  obtain ⟨s, hs, hr⟩ := map_eq_some_iff.mp hrun
  have h : system.Reachable s := System.Reachable.exec (.start ⟨0, h₀⟩) _ hs
  obtain ⟨⟨R, B, hc⟩, -⟩ := consistent_of_reachable h
  exact ⟨s, R, B, h, congrArg Prod.fst hr, congrArg Prod.snd hr, hc⟩

end Fusa.Smart.TaskPool

import Fusa.Lib.Transition

/-! The send rings of a steering domain: `dr_postsend_icm_data`, `dr_send_ring_force_drain`. -/
namespace Fusa.Steering.SendRing
open Transition Function List

/-- `QUEUE_SIZE / SIGNAL_PER_DIV_QUEUE`: every so many WQEs one is signalled. -/
def signalTh : ℕ := 8

def thNumsToDrain : ℕ := 2

/-- An argument update, or a write to ICM with the length of its data. -/
inductive Info
  | args
  | icm (length : ℕ)
deriving DecidableEq

/-- Whether a WQE asks for a completion, and the staging slot that it reads. -/
structure Wqe where
  signaled : Bool
  slot : Option ℕ

/-- A send ring: `call` is the call in the loop of `dr_handle_pending_wc`, with
`is_drain`. The WQEs, what the device has completed, and the last two fields are history. -/
structure Ring where
  maxInlineSize : ℕ
  pendingWqe : ℕ
  txHead : UInt32
  call : Option (Info × Bool)
  cqes : ℕ
  posted : List Wqe
  completed : ℕ
  polled : ℕ
  overwritten : Bool

namespace Ring
variable (r : Ring)

def init (maxInlineSize : ℕ) : Ring := ⟨maxInlineSize, 0, 0, none, 0, [], 0, 0, false⟩

def reads (slot : ℕ) : Bool := (r.posted.drop r.completed).any (·.slot = some slot)

/-- The next WQE, and whether it is signalled. -/
def push (slot : Option ℕ) : Ring :=
  { r with
    pendingWqe := r.pendingWqe + 1
    posted := r.posted ++ [⟨(r.pendingWqe + 1) % signalTh = 0, slot⟩]
    call := none }

/-- The copy to the staging slot in `dr_fill_write_icm_segs`. -/
def stage : Ring :=
  { r with
    txHead := r.txHead + 1
    overwritten := r.overwritten || r.reads (r.txHead &&& 7).toNat }

/-- `dr_fill_data_segs` and `dr_post_send`. -/
def postSend : Info → Ring
  | .args => r.push none
  | .icm length =>
    if r.maxInlineSize < length then (r.stage.push (some (r.txHead &&& 7).toNat)).push none
    else (r.push none).push none

/-- `dr_poll_cq` of one completion, which is counted. -/
def pollCq : Ring :=
  if r.cqes = 0 then r
  else { r with cqes := r.cqes - 1, polled := r.polled + 1, pendingWqe := r.pendingWqe - signalTh }

end Ring

/-- A call, a turn of its loop, and the next WQE that the device completes. -/
inductive Label
  | call (info : Info)
  | poll
  | complete

def next (r : Ring) : Label → Option Ring
  | .call info =>
    if r.call.isSome then none
    else if signalTh ≤ r.pendingWqe then
      some { r with call := some (info, signalTh * thNumsToDrain ≤ r.pendingWqe) }
    else some (r.postSend info)
  | .poll => r.call.map fun c =>
    if c.2 ∧ signalTh ≤ r.pollCq.pendingWqe then r.pollCq else r.pollCq.postSend c.1
  | .complete => r.posted[r.completed]?.map fun w =>
    { r with completed := r.completed + 1, cqes := r.cqes + if w.signaled then 1 else 0 }

def system : System Ring Label where
  start r := ∃ n, r = .init n
  next := next

/-- `pending_wqe` are the WQEs posted less eight for each completion polled, and every eighth WQE
is signalled. -/
structure Ring.Marked (r : Ring) : Prop where
  pending : r.pendingWqe + 8 * r.polled = r.posted.length
  signaled : ∀ i w, r.posted[i]? = some w → (w.signaled ↔ (i + 1) % 8 = 0)

/-- No data in flight has been overwritten, and a drain waits for a completion that will come. -/
structure Ring.Safe (r : Ring) : Prop extends r.Marked where
  intact : r.overwritten = false
  awaited : ∀ info, r.call = some (info, true) →
    0 < r.cqes ∨ ∃ i w, r.completed ≤ i ∧ r.posted[i]? = some w ∧ w.signaled

/-- Behind the `k`-th of `n` staged writes come those staged later, two WQEs each. -/
def Ring.Staged (r : Ring) (n : ℕ) : Prop :=
  r.txHead = UInt32.ofNat n ∧ ∀ i w q, r.posted[i]? = some w → w.slot = some q →
    ∃ k < n, q = k % 8 ∧ i + 2 * (n - k) ≤ r.posted.length

structure Ring.Counted (r : Ring) : Prop extends r.Marked where
  cqes : r.cqes + r.polled = r.completed / 8
  intact : r.overwritten = false
  staged : ∃ n, r.Staged n

structure Inv (r : Ring) : Prop extends r.Counted where
  le : r.pendingWqe ≤ 17
  call : ∀ c ∈ r.call, 8 ≤ r.pendingWqe ∧ (c.2 = false → r.pendingWqe ≤ 15)

variable {r t : Ring} {slot : Option ℕ} {info : Info} {n i : ℕ} {w : Wqe}

theorem slot_eq (n : ℕ) : (UInt32.ofNat n &&& 7).toNat = n % 8 := by
  rw [UInt32.toNat_and, UInt32.toNat_ofNat']
  exact (Nat.and_two_pow_sub_one_eq_mod _ 3).trans (by omega)

namespace Ring

theorem getElem?_push (h : (r.push slot).posted[i]? = some w) :
    r.posted[i]? = some w ∨ i = r.posted.length ∧
      w = ⟨(r.pendingWqe + 1) % signalTh = 0, slot⟩ := by
  simp only [push, getElem?_append] at h
  split at h
  · exact .inl h
  · obtain ⟨hi, h⟩ := List.getElem?_eq_some_iff.mp h
    simp only [length_singleton] at hi
    exact .inr ⟨by omega, by simpa using h.symm⟩

theorem length_push : (r.push slot).posted.length = r.posted.length + 1 := by simp [push]

theorem Marked.push (h : r.Marked) : (r.push slot).Marked := by
  have hp := h.pending
  refine ⟨?_, fun i w hw => ?_⟩
  · rw [length_push]
    simp only [Ring.push]
    omega
  · rcases getElem?_push hw with hw | ⟨rfl, rfl⟩
    · exact h.signaled i w hw
    · rw [decide_eq_true_eq, signalTh]
      omega

theorem Staged.push (h : r.Staged n) : (r.push none).Staged n := by
  refine ⟨h.1, fun i w q hw hq => ?_⟩
  rw [length_push]
  rcases getElem?_push hw with hw | ⟨-, rfl⟩
  · obtain ⟨k, hk, hq, hi⟩ := h.2 i w q hw hq
    exact ⟨k, hk, hq, by omega⟩
  · cases hq

theorem Staged.stage (h : r.Staged n) :
    ((r.stage.push (some (r.txHead &&& 7).toNat)).push none).Staged (n + 1) := by
  refine ⟨by simp [Ring.push, Ring.stage, h.1], fun i w q hw hq => ?_⟩
  rw [length_push, length_push]
  rcases getElem?_push hw with hw | ⟨-, rfl⟩
  · rcases getElem?_push hw with hw | ⟨rfl, rfl⟩
    · obtain ⟨k, hk, hq, hi⟩ := h.2 i w q hw hq
      exact ⟨k, by omega, hq, by simp only [Ring.stage]; omega⟩
    · refine ⟨n, by omega, ?_, by omega⟩
      rw [← slot_eq, ← h.1]
      exact (Option.some.inj hq).symm
  · cases hq

namespace Counted
variable (h : r.Counted)
include h

/-- A slot comes round after eight staged writes, when the WQEs of the first are complete. -/
theorem not_reads (hle : r.pendingWqe ≤ 15) : r.reads (r.txHead &&& 7).toNat = false := by
  obtain ⟨n, hn, hstaged⟩ := h.staged
  rw [hn, slot_eq]
  by_contra hr
  simp only [Ring.reads, Bool.not_eq_false, any_eq_true, decide_eq_true_eq] at hr
  obtain ⟨w, hw, hq⟩ := hr
  obtain ⟨j, hj⟩ := mem_iff_getElem?.mp hw
  rw [getElem?_drop] at hj
  obtain ⟨k, hk, hq, hi⟩ := hstaged _ w _ hj hq
  have hp := h.pending
  have hc := h.cqes
  omega

theorem postSend (hle : r.pendingWqe ≤ 15) (info : Info) : Inv (r.postSend info) := by
  obtain ⟨n, hn⟩ := h.staged
  have hm := h.toMarked
  cases info with
  | args =>
    refine ⟨⟨hm.push, h.cqes, h.intact, n, hn.push⟩, ?_,
      fun c hc => absurd hc (Option.not_mem_none c)⟩
    exact Nat.le_trans (Nat.add_le_add_right hle 1) (by omega)
  | icm length =>
    simp only [Ring.postSend]
    split
    · have hs : r.stage.Marked := ⟨hm.pending, hm.signaled⟩
      refine ⟨⟨hs.push.push, h.cqes, ?_, n + 1, hn.stage⟩, Nat.add_le_add_right hle 2,
        fun c hc => absurd hc (Option.not_mem_none c)⟩
      exact Bool.or_eq_false_iff.mpr ⟨h.intact, h.not_reads hle⟩
    · exact ⟨⟨hm.push.push, h.cqes, h.intact, n, hn.push.push⟩, Nat.add_le_add_right hle 2,
        fun c hc => absurd hc (Option.not_mem_none c)⟩

theorem pollCq (h8 : 8 ≤ r.pendingWqe) :
    r.pollCq.Counted ∧ r.pollCq.pendingWqe ≤ r.pendingWqe ∧ r.pollCq.call = r.call := by
  have hp := h.pending
  have hc := h.cqes
  unfold Ring.pollCq
  split
  · exact ⟨h, Nat.le_refl _, rfl⟩
  · refine ⟨⟨⟨?_, h.signaled⟩, ?_, h.intact, h.staged⟩, Nat.sub_le .., rfl⟩ <;>
      simp only [signalTh] <;> omega

end Counted

end Ring

theorem Inv.step {a : Label} (h : Inv r) (hn : next r a = some t) : Inv t := by
  cases a with
  | call info =>
    unfold next at hn
    split_ifs at hn with h1 h2
    · cases hn
      refine ⟨⟨⟨h.pending, h.signaled⟩, h.cqes, h.intact, h.staged⟩, h.le, ?_⟩
      rintro _ ⟨⟩
      exact ⟨h2, fun hd => Nat.le_of_lt_succ (Nat.lt_of_not_le (of_decide_eq_false hd))⟩
    · cases hn
      exact h.postSend (by unfold signalTh at h2; omega) info
  | poll =>
    obtain ⟨c, hc, rfl⟩ := Option.map_eq_some_iff.mp hn
    obtain ⟨h8, h15⟩ := h.call c hc
    obtain ⟨hp, hle, hcall⟩ := h.pollCq h8
    split_ifs with hd
    · refine ⟨hp, Nat.le_trans hle h.le, fun c' hc' => ⟨hd.2, fun hf => ?_⟩⟩
      rw [hcall, hc] at hc'
      cases hc'
      simp [hf] at hd
    · refine hp.postSend ?_ c.1
      cases hdrain : c.2 with
      | false => exact Nat.le_trans hle (h15 hdrain)
      | true =>
        simp only [hdrain, true_and, signalTh] at hd
        omega
  | complete =>
    obtain ⟨w, hw, rfl⟩ := Option.map_eq_some_iff.mp hn
    have hs := h.signaled _ _ hw
    have hc := h.cqes
    refine ⟨⟨⟨h.pending, h.signaled⟩, ?_, h.intact, h.staged⟩, h.le, h.call⟩
    dsimp only
    split
    · have := hs.mp (by assumption)
      omega
    · have := mt hs.mpr (by assumption)
      omega

theorem Inv.of_reachable (h : system.Reachable r) : Inv r := by
  refine h.invariant ?_ fun _ _ _ h hn => h.step hn
  rintro _ ⟨n, rfl⟩
  exact ⟨⟨⟨rfl, by simp [Ring.init]⟩, by simp [Ring.init], rfl, 0, rfl, by simp [Ring.init]⟩,
    Nat.zero_le _, by simp [Ring.init]⟩

def sent (n : ℕ) (r : Ring) : Ring × ℕ := (r, if r.call.isSome then n else n + 1)

/-- `dr_send_ring_force_drain` as one of its rings sees it: eight writes of 64 bytes. -/
def drainNext (s : Ring × ℕ) : Label → Option (Ring × ℕ)
  | .call info => if info = .icm 64 ∧ s.2 < 8 then (next s.1 (.call info)).map (sent s.2) else none
  | .poll => (next s.1 .poll).map (sent s.2)
  | .complete => (next s.1 .complete).map (·, s.2)

def drainSystem (r₀ : Ring) : System (Ring × ℕ) Label where
  start s := s = (r₀, 0)
  next := drainNext

/-- Each post of the drain adds two WQEs when it returns. -/
structure DrainInv (r₀ : Ring) (s : Ring × ℕ) : Prop where
  ring : Inv s.1
  call : ∀ c ∈ s.1.call, c.1 = .icm 64
  posted : s.1.posted.length = r₀.posted.length + 2 * s.2

variable {r₀ : Ring} {s s' : Ring × ℕ}

theorem DrainInv.returned (h : DrainInv r₀ s) (hr : r.posted = s.1.posted)
    (hi : Inv (r.postSend (.icm 64))) : DrainInv r₀ (sent s.2 (r.postSend (.icm 64))) := by
  have hp : (r.postSend (.icm 64)).call = none ∧
      (r.postSend (.icm 64)).posted.length = r.posted.length + 2 := by
    simp only [Ring.postSend]
    split <;> simp [Ring.push, Ring.stage]
  refine ⟨hi, by simp [sent, hp.1], ?_⟩
  have := h.posted
  simp only [sent, hp, hr, Option.isSome_none, Bool.false_eq_true, if_false]
  omega

theorem DrainInv.step {a : Label} (h : DrainInv r₀ s) (hn : drainNext s a = some s') :
    DrainInv r₀ s' := by
  cases a with
  | call info =>
    obtain ⟨⟨rfl, -⟩, hn⟩ := Option.ite_none_right_eq_some.mp hn
    obtain ⟨r, hr, rfl⟩ := Option.map_eq_some_iff.mp hn
    have hi := h.ring.step hr
    unfold next at hr
    split_ifs at hr
    · cases hr
      exact ⟨hi, by simp [sent], by simpa [sent] using h.posted⟩
    · cases hr
      exact h.returned rfl hi
  | poll =>
    obtain ⟨r, hr, rfl⟩ := Option.map_eq_some_iff.mp hn
    have hi := h.ring.step hr
    obtain ⟨c, hc, rfl⟩ := Option.map_eq_some_iff.mp hr
    have hp : s.1.pollCq.posted = s.1.posted ∧ s.1.pollCq.call = s.1.call := by
      unfold Ring.pollCq
      split <;> exact ⟨rfl, rfl⟩
    rw [h.call c hc] at hi ⊢
    split_ifs at hi ⊢
    · exact ⟨hi, by simpa [sent, hp.2] using h.call, by simpa [sent, hp, hc] using h.posted⟩
    · exact h.returned hp.1 hi
  | complete =>
    obtain ⟨r, hr, rfl⟩ := Option.map_eq_some_iff.mp hn
    have hi := h.ring.step hr
    obtain ⟨w, hw, rfl⟩ := Option.map_eq_some_iff.mp hr
    exact ⟨hi, h.call, h.posted⟩

/-- A drain that has returned has completed what was posted on the ring before, unless that is one
WQE more than a multiple of eight. -/
theorem forceDrain_completes (hr : system.Reachable r₀) (hidle : r₀.call = none)
    (hodd : r₀.pendingWqe % 8 ≠ 1) (h : (drainSystem r₀).Reachable s) (hret : s.2 = 8) :
    r₀.posted.length ≤ s.1.completed := by
  have hinv : DrainInv r₀ s := by
    refine h.invariant ?_ fun _ _ _ h hn => h.step hn
    rintro _ rfl
    exact ⟨.of_reachable hr, by simp [hidle], rfl⟩
  have h0 := (Inv.of_reachable hr).pending
  have hp := hinv.ring.pending
  have hc := hinv.ring.cqes
  have hle := hinv.ring.le
  have hn := hinv.posted
  omega

theorem reachable_args (n : ℕ) : system.Reachable ((Ring.init n).postSend .args) :=
  .step (.call .args) (.start ⟨n, rfl⟩) rfl

theorem forceDrain_completes_twoArgs : ∃ s,
    (drainSystem (((Ring.init 64).postSend .args).postSend .args)).Reachable s ∧ s.2 = 8 ∧
      2 ≤ s.1.completed := by
  obtain ⟨s, -, h, hs⟩ :=
    (drainSystem (((Ring.init 64).postSend .args).postSend .args)).exists_reachable
    (fun s => s.2 = 8) rfl
    ([.call (.icm 64), .call (.icm 64), .call (.icm 64)] ++
      (replicate 4 [.call (.icm 64), .poll]).flatten ++
      .call (.icm 64) :: replicate 16 .complete ++ [.poll, .poll]) (by decide +kernel)
  exact ⟨s, h, hs,
    forceDrain_completes (.step (.call .args) (reachable_args 64) rfl) rfl (by decide) h hs⟩

/-- One argument update is posted, and the last post of the drain finds 15 WQEs pending. -/
theorem not_forceDrain_completes_oneArgs : ∃ s, system.Reachable ((Ring.init 64).postSend .args) ∧
      (drainSystem ((Ring.init 64).postSend .args)).Reachable s ∧ s.2 = 8 ∧
      s.1.completed < ((Ring.init 64).postSend .args).posted.length := by
  obtain ⟨s, -, h, hs⟩ := (drainSystem ((Ring.init 64).postSend .args)).exists_reachable
    (fun s => s.2 = 8 ∧ s.1.completed < 1) rfl
    (replicate 4 (.call (.icm 64)) ++ (replicate 4 [.call (.icm 64), .poll]).flatten)
    (by decide +kernel)
  exact ⟨s, reachable_args 64, h, hs⟩

end Fusa.Steering.SendRing

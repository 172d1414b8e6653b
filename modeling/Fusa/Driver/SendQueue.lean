import Fusa.Driver.Hook
import Fusa.Lib.Transition

/-! The send queue of a queue pair: `_mlx5_post_send`, `mlx5_wq_overflow` and the completions
that move `sq.tail`. -/
namespace Fusa.Driver
open Transition List Option Nat

/-- The checks that stop the walk over a chain; `overflow` and `maxGs` are `ENOMEM`. -/
inductive PostError
  | badOpcode
  | overflow
  | maxGs
  | noAtomics
deriving DecidableEq, Repr

/-- A work request in the send queue with its `wqe_head`, completed if it is signaled. -/
structure Wqe where
  wr : SendWr
  wqeHead : UInt32
  signaled : Bool
deriving DecidableEq, Repr

/-- `wqes` are not completed yet; `sendCqes` are the `wqe_head`s of completions not polled yet. -/
structure Qp where
  head : UInt32
  tail : UInt32
  maxPost : UInt32
  maxGs : ℕ
  sqSigAll : Bool
  atomicsEnabled : Bool
  wqes : List Wqe
  sendCqes : List UInt32
deriving DecidableEq, Repr

namespace Qp
variable (qp : Qp)

def wqOverflow (nreq : UInt32) : Bool := qp.maxPost ≤ qp.head - qp.tail + nreq

/-- The checks before a WQE is built. Those of inline data, binds and TSO headers, which no
offloaded request comes to, are in `Sq.postSend`. -/
def check (nreq : UInt32) (w : SendWr) : Option PostError :=
  match w.op with
  | .plain .unsupported _ _ => some .badOpcode
  | .plain _ _ _ =>
    if qp.wqOverflow nreq then some .overflow
    else if qp.maxGs < w.sgList.length then some .maxGs
    else none
  | .atomic _ _ =>
    if qp.wqOverflow nreq then some .overflow
    else if qp.maxGs < w.sgList.length then some .maxGs
    else if qp.atomicsEnabled then none
    else some .noAtomics

/-- The walk over the chain, which moves `sq.head` only afterwards, and the error that ends it. -/
def postLoop : UInt32 → List SendWr → List Wqe × Option PostError
  | _, [] => ([], none)
  | nreq, w :: next =>
    match qp.check nreq w with
    | some e => ([], some e)
    | none =>
      (⟨w, qp.head + nreq, qp.sqSigAll || w.sendFlags.signaled⟩ :: (postLoop (nreq + 1) next).1,
        (postLoop (nreq + 1) next).2)

def postSend (chain : List SendWr) : Qp × Option PostError :=
  let r := qp.postLoop 0 chain
  ({ qp with head := qp.head + UInt32.ofNat r.1.length, wqes := qp.wqes ++ r.1 }, r.2)

def complete : Option Qp :=
  match qp.wqes with
  | [] => none
  | w :: wqes =>
    some { qp with
      wqes, sendCqes := if w.signaled then qp.sendCqes ++ [w.wqeHead] else qp.sendCqes }

/-- `mlx5_parse_cqe` on a send completion. -/
def pollSend : Option Qp :=
  match qp.sendCqes with
  | [] => none
  | x :: sendCqes => some { qp with tail := x + 1, sendCqes }

end Qp

variable (ep : Endpoint) (credit : ℕ → UInt16)

def mlx5PostSend (r : Region) (qp : Qp) (chain : List SendWr) : Region × Qp × Option PostError :=
  ((hook ep credit r chain).1, qp.postSend (hook ep credit r chain).2)

/-- An atomic whose slot has a credit, with a scatter list that the queue pair takes. -/
def SendWr.offloads (w : SendWr) (maxGs : ℕ) : Bool :=
  match w.op with
  | .plain _ _ _ => false
  | .atomic a _ => credit (counterIdx a.remoteAddr) ≠ 0 ∧ w.sgList.length ≤ maxGs

variable {w : SendWr}

theorem mlx5PostSend_offload {r : Region} {qp : Qp} (hw : w.offloads credit qp.maxGs = true) :
    ∃ r' w', mlx5PostSend ep credit r qp [w] = (r',
      if qp.wqOverflow 0 then (qp, some .overflow)
      else ({ qp with
        head := qp.head + 1
        wqes := qp.wqes ++ [⟨w', qp.head, qp.sqSigAll⟩] }, none)) := by
  cases ho : w.op with
  | plain => simp [SendWr.offloads, ho] at hw
  | atomic a rkey =>
    simp only [SendWr.offloads, ho, decide_eq_true_eq] at hw
    refine ⟨_, (hookHead ep credit r w).2, Prod.ext rfl ?_⟩
    have hgs : ¬ qp.maxGs < w.sgList.length := not_lt.mpr hw.2
    simp only [mlx5PostSend, hook, hookHead, ho, hw.1, if_false, offload]
    by_cases hv : qp.wqOverflow 0 = true
    · simp [Qp.postSend, Qp.postLoop, Qp.check, hv]
    · simp [Qp.postSend, Qp.postLoop, Qp.check, hv, hgs, SendFlags.zero]

section
variable {t₀ : UInt32} {j m : ℕ}

theorem offset_toNat (hm : m < 2 ^ 32) (hj : j ≤ m) :
    (t₀ + UInt32.ofNat m - (t₀ + UInt32.ofNat j)).toNat = m - j := by
  have he : t₀ + UInt32.ofNat m - (t₀ + UInt32.ofNat j) = UInt32.ofNat (m - j) := by
    rw [add_sub_add_left_eq_sub, UInt32.ofNat_sub hj]
  rw [he, UInt32.toNat_ofNat_of_lt' (show m - j < 2 ^ 32 by omega)]

theorem exists_offset {x : UInt32} (t₀ : UInt32) : x = t₀ + UInt32.ofNat (x - t₀).toNat := by
  rw [UInt32.ofNat_toNat, add_sub_cancel]

end

/-- Entries of the send queue that `mlx5_wq_overflow` counts. -/
def Qp.outstanding (qp : Qp) : ℕ := (qp.head - qp.tail).toNat

variable (qp : Qp)

theorem Qp.wqOverflow_zero : qp.wqOverflow 0 = true ↔ qp.maxPost.toNat ≤ qp.outstanding := by
  simp [wqOverflow, outstanding, UInt32.le_iff_toNat_le]

/-- A queue pair as any sequence of posts and completions leaves it. -/
structure Qp.WellFormed (qp : Qp) : Prop where
  room : qp.outstanding ≤ qp.maxPost.toNat
  wqes : ∀ w ∈ qp.wqes, (w.wqeHead - qp.tail).toNat < qp.outstanding
  cqes : ∀ x ∈ qp.sendCqes, (x - qp.tail).toNat < qp.outstanding

/-- The send queue lies within `m` entries from the tail it started with. -/
structure Qp.Within (qp : Qp) (t₀ : UInt32) (m : ℕ) : Prop where
  head : qp.head = t₀ + UInt32.ofNat m
  tail : ∃ j ≤ m, qp.tail = t₀ + UInt32.ofNat j
  wqes : ∀ w ∈ qp.wqes, ∃ j < m, w.wqeHead = t₀ + UInt32.ofNat j
  cqes : ∀ x ∈ qp.sendCqes, ∃ j < m, x = t₀ + UInt32.ofNat j

namespace Qp
variable {qp qp' : Qp} {t₀ : UInt32} {m : ℕ}

theorem WellFormed.within (h : qp.WellFormed) : qp.Within qp.tail qp.outstanding where
  head := exists_offset qp.tail
  tail := ⟨0, zero_le _, by simp⟩
  wqes w hw := ⟨_, h.wqes w hw, exists_offset qp.tail⟩
  cqes x hx := ⟨_, h.cqes x hx, exists_offset qp.tail⟩

section
variable (h : qp.Within t₀ m)
include h

theorem Within.outstanding_le (hm : m < 2 ^ 32) : qp.outstanding ≤ m := by
  obtain ⟨j, hj, ht⟩ := h.tail
  rw [outstanding, h.head, ht, offset_toNat hm hj]
  exact sub_le m j

theorem Within.post (w : SendWr) (signaled : Bool) :
    Within { qp with head := qp.head + 1, wqes := qp.wqes ++ [⟨w, qp.head, signaled⟩] }
      t₀ (m + 1) where
  head := by
    rw [h.head, UInt32.ofNat_add]
    exact add_assoc ..
  tail := by
    obtain ⟨j, hj, ht⟩ := h.tail
    exact ⟨j, by omega, ht⟩
  wqes w hw := by
    obtain hw | hw := mem_append.mp hw
    · obtain ⟨j, hj, he⟩ := h.wqes w hw
      exact ⟨j, by omega, he⟩
    · obtain rfl := mem_singleton.mp hw
      exact ⟨m, by omega, h.head⟩
  cqes x hx := by
    obtain ⟨j, hj, he⟩ := h.cqes x hx
    exact ⟨j, by omega, he⟩

theorem Within.complete (hc : qp.complete = some qp') : qp'.Within t₀ m := by
  cases hw : qp.wqes with
  | nil => simp [Qp.complete, hw] at hc
  | cons w wqes =>
    simp only [Qp.complete, hw] at hc
    cases hc
    refine ⟨h.head, h.tail, fun w' hw' => h.wqes w' (by simp [hw, hw']), fun x hx => ?_⟩
    cases hs : w.signaled with
    | false => exact h.cqes x (by simpa [hs] using hx)
    | true =>
      simp only [hs, if_true, mem_append, mem_singleton] at hx
      obtain hx | rfl := hx
      · exact h.cqes x hx
      · exact h.wqes w (by simp [hw])

theorem Within.pollSend (hc : qp.pollSend = some qp') : qp'.Within t₀ m := by
  cases hx : qp.sendCqes with
  | nil => simp [Qp.pollSend, hx] at hc
  | cons x sendCqes =>
    simp only [Qp.pollSend, hx] at hc
    cases hc
    obtain ⟨j, hj, he⟩ := h.cqes x (by simp [hx])
    refine ⟨h.head, ⟨j + 1, hj, ?_⟩, h.wqes, fun y hy => h.cqes y (by simp [hx, hy])⟩
    rw [he, UInt32.ofNat_add]
    exact add_assoc ..

end

theorem complete_maxPost (hc : qp.complete = some qp') : qp'.maxPost = qp.maxPost := by
  cases hw : qp.wqes with
  | nil => simp [Qp.complete, hw] at hc
  | cons w wqes =>
    simp only [Qp.complete, hw, some.injEq] at hc
    exact hc ▸ rfl

theorem pollSend_maxPost (hc : qp.pollSend = some qp') : qp'.maxPost = qp.maxPost := by
  cases hx : qp.sendCqes with
  | nil => simp [Qp.pollSend, hx] at hc
  | cons x sendCqes =>
    simp only [Qp.pollSend, hx, some.injEq] at hc
    exact hc ▸ rfl

end Qp

/-- No entry of the send queue will be reported, and none was. -/
structure Qp.Silent (qp : Qp) (t₀ : UInt32) : Prop where
  sigAll : qp.sqSigAll = false
  wqes : ∀ w ∈ qp.wqes, w.signaled = false
  cqes : qp.sendCqes = []
  tail : qp.tail = t₀

namespace SendQueue

/-- A thread that offloads atomics; as history its calls, and whether one met a full queue. -/
structure State where
  region : Region
  qp : Qp
  awaiting : Bool
  offloads : ℕ
  overflowed : Bool

inductive Action
  | offload (w : SendWr)
  | complete
  | pollSend
  | pollRecv

/-- A new atomic is posted after the receive completion of the last one was polled. -/
def next (s : State) : Action → Option State
  | .offload w =>
    if s.awaiting = false ∧ w.offloads credit s.qp.maxGs then
      let r := mlx5PostSend ep credit s.region s.qp [w]
      some { s with
        region := r.1
        qp := r.2.1
        awaiting := r.2.2 = none
        offloads := s.offloads + 1
        overflowed := s.overflowed || r.2.2 = some .overflow }
    else none
  | .complete => s.qp.complete.map fun qp => { s with qp }
  | .pollSend => s.qp.pollSend.map fun qp => { s with qp }
  | .pollRecv =>
    if s.awaiting = true ∧ s.qp.wqes = [] then some { s with awaiting := false } else none

def system : System State Action where
  start s := s.qp = qp ∧ s.awaiting = false ∧ s.offloads = 0 ∧ s.overflowed = false
  next := next ep credit

variable {s t : State} {a : Action} {n : ℕ}

theorem next_offload (hn : next ep credit s (.offload w) = some t) :
    t.offloads = s.offloads + 1 ∧
      ((s.qp.wqOverflow 0 = true ∧ t.qp = s.qp ∧ t.overflowed = true) ∨
        (s.qp.wqOverflow 0 = false ∧ t.overflowed = s.overflowed ∧ t.awaiting = true ∧
          ∃ w', t.qp = { s.qp with
            head := s.qp.head + 1
            wqes := s.qp.wqes ++ [⟨w', s.qp.head, s.qp.sqSigAll⟩] })) := by
  obtain ⟨hg, hn⟩ := ite_none_right_eq_some.mp hn
  obtain ⟨r', w', hp⟩ := mlx5PostSend_offload ep credit (r := s.region) hg.2
  cases hn
  refine ⟨rfl, ?_⟩
  cases hv : s.qp.wqOverflow 0 with
  | true => exact .inl ⟨rfl, by simp [hp, hv], by simp [hp, hv]⟩
  | false => exact .inr ⟨rfl, by simp [hp, hv], by simp [hp, hv], w', by simp [hp, hv]⟩

/-- While `outstanding + offloads` stays within `max_post`, the send queue has had room. -/
structure Inv (qp : Qp) (s : State) : Prop where
  maxPost : s.qp.maxPost = qp.maxPost
  within : qp.outstanding + s.offloads ≤ qp.maxPost.toNat →
    s.overflowed = false ∧ ∃ m ≤ qp.outstanding + s.offloads, s.qp.Within qp.tail m

theorem Inv.step {qp : Qp} (h : Inv qp s) (hn : next ep credit s a = some t) : Inv qp t := by
  cases a with
  | offload w =>
    obtain ⟨ho, hcase⟩ := next_offload ep credit hn
    rcases hcase with ⟨hv, hq, -⟩ | ⟨-, hov, -, w', hq⟩
    · refine ⟨hq ▸ h.maxPost, fun hle => ?_⟩
      -- the queue cannot have been full
      obtain ⟨-, m, hm, hw⟩ := h.within (by omega)
      have hlt : m < 2 ^ 32 := by have := qp.maxPost.toNat_lt; omega
      have hfull := s.qp.wqOverflow_zero.mp hv
      have hout := hw.outstanding_le hlt
      rw [h.maxPost] at hfull
      omega
    · refine ⟨hq ▸ h.maxPost, fun hle => ?_⟩
      obtain ⟨hf, m, hm, hw⟩ := h.within (by omega)
      exact ⟨hov.trans hf, m + 1, by omega, hq ▸ hw.post w' _⟩
  | complete =>
    obtain ⟨qp', hc, rfl⟩ := map_eq_some_iff.mp hn
    refine ⟨(Qp.complete_maxPost hc).trans h.maxPost, fun hle => ?_⟩
    obtain ⟨hf, m, hm, hw⟩ := h.within hle
    exact ⟨hf, m, hm, hw.complete hc⟩
  | pollSend =>
    obtain ⟨qp', hc, rfl⟩ := map_eq_some_iff.mp hn
    refine ⟨(Qp.pollSend_maxPost hc).trans h.maxPost, fun hle => ?_⟩
    obtain ⟨hf, m, hm, hw⟩ := h.within hle
    exact ⟨hf, m, hm, hw.pollSend hc⟩
  | pollRecv =>
    obtain ⟨-, ⟨⟩⟩ := ite_none_right_eq_some.mp hn
    exact ⟨h.maxPost, h.within⟩

theorem inv_of_reachable {qp : Qp} (hwf : qp.WellFormed) (h : (system ep credit qp).Reachable s) :
    Inv qp s := by
  refine h.invariant (fun s hs => ?_) fun _ _ _ hi hn => hi.step ep credit hn
  obtain ⟨rfl, -, ho, hf⟩ := hs
  exact ⟨rfl, fun _ => ⟨hf, _, by omega, hwf.within⟩⟩

/-- All that was posted is completed, and the last reply is polled. -/
structure Ready (qp : Qp) (n : ℕ) (s : State) : Prop where
  awaiting : s.awaiting = false
  wqes : s.qp.wqes = []
  head : s.qp.head = qp.head + UInt32.ofNat n
  tail : s.qp.tail = qp.tail
  maxPost : s.qp.maxPost = qp.maxPost
  maxGs : s.qp.maxGs = qp.maxGs
  offloads : s.offloads = n

theorem Ready.outstanding {qp : Qp} (h : Ready qp n s) (hlt : qp.outstanding + n < 2 ^ 32) :
    s.qp.outstanding = qp.outstanding + n := by
  have hhead : s.qp.head = qp.tail + UInt32.ofNat (qp.outstanding + n) := by
    rw [h.head, UInt32.ofNat_add, ← add_assoc, Qp.outstanding, ← exists_offset]
  have htail : s.qp.tail = qp.tail + UInt32.ofNat 0 := by simp [h.tail]
  rw [Qp.outstanding, hhead, htail, offset_toNat hlt (Nat.zero_le _), Nat.sub_zero]

section
variable {qp : Qp}

theorem reaches_completed (qp : Qp) (l : List Wqe) (hl : s.qp.wqes = l) :
    ∃ sendCqes, (system ep credit qp).Reaches s
      { s with qp := { s.qp with wqes := [], sendCqes } } := by
  induction l generalizing s with
  | nil =>
    have he : s.qp = { s.qp with wqes := [], sendCqes := s.qp.sendCqes } := by
      conv_lhs => rw [show s.qp = { s.qp with wqes := s.qp.wqes } from rfl, hl]
    refine ⟨s.qp.sendCqes, ?_⟩
    rw [← he]
    exact .refl s
  | cons w l ih =>
    obtain ⟨sendCqes, hr⟩ := ih (s := { s with qp := { s.qp with
      wqes := l
      sendCqes := if w.signaled then s.qp.sendCqes ++ [w.wqeHead] else s.qp.sendCqes } }) rfl
    refine ⟨sendCqes, .trans (.step .complete ?_) hr⟩
    simp [system, next, Qp.complete, hl]

variable (hw : w.offloads credit qp.maxGs = true)
include hw

theorem Ready.offload (h : Ready qp n s) (hv : s.qp.wqOverflow 0 = false) :
    ∃ t, (system ep credit qp).Reaches s t ∧ Ready qp (n + 1) t := by
  have hg : s.awaiting = false ∧ w.offloads credit s.qp.maxGs = true := ⟨h.awaiting, h.maxGs ▸ hw⟩
  obtain ⟨t, ht⟩ : ∃ t, next ep credit s (.offload w) = some t := by
    simp only [next, hg, and_self, if_true]
    exact ⟨_, rfl⟩
  obtain ⟨ho, ⟨hv', -⟩ | ⟨-, -, ha, w', hq⟩⟩ := next_offload ep credit ht
  · exact absurd hv' (by simp [hv])
  · obtain ⟨sendCqes, hr⟩ := reaches_completed ep credit qp t.qp.wqes rfl
    refine ⟨{ t with awaiting := false, qp := { t.qp with wqes := [], sendCqes } },
      .trans (.trans (.step (.offload w) ht) hr) (.step .pollRecv ?_), ?_⟩
    · simp [system, next, ha]
    · refine ⟨rfl, rfl, ?_, by simp [hq, h.tail], by simp [hq, h.maxPost], by simp [hq, h.maxGs],
        by simp [ho, h.offloads]⟩
      simp only [hq, h.head, UInt32.ofNat_add]
      exact add_assoc ..

theorem exists_ready (hs : (system ep credit qp).start s) (n : ℕ)
    (hn : qp.outstanding + n ≤ qp.maxPost.toNat) :
    ∃ t, (system ep credit qp).Reaches s t ∧ Ready qp n t := by
  induction n with
  | zero =>
    obtain ⟨rfl, ha, ho, -⟩ := hs
    obtain ⟨sendCqes, hr⟩ := reaches_completed ep credit s.qp s.qp.wqes rfl
    exact ⟨_, hr, ha, rfl, by simp, rfl, rfl, rfl, ho⟩
  | succ n ih =>
    obtain ⟨t, ht, hready⟩ := ih (by omega)
    have hv : t.qp.wqOverflow 0 = false := by
      by_contra hfull
      have hle := t.qp.wqOverflow_zero.mp (by simpa using hfull)
      have hlt : qp.outstanding + n < 2 ^ 32 := by have := qp.maxPost.toNat_lt; omega
      rw [hready.maxPost, hready.outstanding hlt] at hle
      omega
    obtain ⟨u, hu, hready'⟩ := hready.offload ep credit hw hv
    exact ⟨u, ht.trans hu, hready'⟩

theorem exists_overflowed (hs : (system ep credit qp).start s)
    (hn : qp.outstanding + n = qp.maxPost.toNat) :
    ∃ t, (system ep credit qp).Reaches s t ∧ t.offloads = n + 1 ∧ t.overflowed = true := by
  obtain ⟨t, ht, hready⟩ := exists_ready ep credit hw hs n (by omega)
  have hlt : qp.outstanding + n < 2 ^ 32 := by have := qp.maxPost.toNat_lt; omega
  have hv : t.qp.wqOverflow 0 = true := by
    rw [Qp.wqOverflow_zero, hready.maxPost, hready.outstanding hlt, hn]
  have hg : t.awaiting = false ∧ w.offloads credit t.qp.maxGs = true :=
    ⟨hready.awaiting, hready.maxGs ▸ hw⟩
  obtain ⟨u, hu⟩ : ∃ u, next ep credit t (.offload w) = some u := by
    simp only [next, hg, and_self, if_true]
    exact ⟨_, rfl⟩
  obtain ⟨ho, ⟨-, -, hf⟩ | ⟨hv', -⟩⟩ := next_offload ep credit hu
  · exact ⟨u, ht.trans (.step (.offload w) hu), by rw [ho, hready.offloads], hf⟩
  · exact absurd hv (by simp [hv'])

end

def State.init : State := ⟨.zero, qp, false, 0, false⟩

theorem start_init : (system ep credit qp).start (State.init qp) := ⟨rfl, rfl, rfl, rfl⟩

/-- None of the first `n` calls finds the send queue full, whatever completions are polled. -/
def Sustains (n : ℕ) : Prop :=
  ∀ s, (system ep credit qp).Reachable s → s.offloads ≤ n → s.overflowed = false

/-- Atomics can be offloaded one after the other while the queue has room for all at once. -/
theorem sustains_iff (hwf : qp.WellFormed) (w : SendWr)
    (hw : w.offloads credit qp.maxGs = true) (n : ℕ) :
    Sustains ep credit qp n ↔ qp.outstanding + n ≤ qp.maxPost.toNat := by
  constructor
  · intro h
    by_contra hn
    obtain ⟨m, hm⟩ : ∃ m, qp.outstanding + m = qp.maxPost.toNat := ⟨_, add_sub_of_le hwf.room⟩
    obtain ⟨t, ht, ho, hf⟩ := exists_overflowed ep credit hw (start_init ep credit qp) hm
    have := h t (.reaches (.start (start_init ep credit qp)) ht) (by omega)
    simp [hf] at this
  · intro hn s hs hle
    exact ((inv_of_reachable ep credit hwf hs).within (by omega)).1

theorem silent_step {t₀ : UInt32} (h : s.qp.Silent t₀) (hn : next ep credit s a = some t) :
    t.qp.Silent t₀ := by
  cases a with
  | offload w =>
    obtain ⟨-, ⟨-, hq, -⟩ | ⟨-, -, -, w', hq⟩⟩ := next_offload ep credit hn
    · exact hq ▸ h
    · rw [hq]
      refine ⟨h.sigAll, fun w hm => ?_, h.cqes, h.tail⟩
      obtain hm | hm := mem_append.mp hm
      · exact h.wqes w hm
      · rw [mem_singleton.mp hm]
        exact h.sigAll
  | complete =>
    obtain ⟨qp', hqp, rfl⟩ := map_eq_some_iff.mp hn
    cases hl : s.qp.wqes with
    | nil => simp [Qp.complete, hl] at hqp
    | cons w wqes =>
      simp only [Qp.complete, hl] at hqp
      cases hqp
      have hw : w.signaled = false := h.wqes w (by simp [hl])
      exact ⟨h.sigAll, fun w' hm => h.wqes w' (by simp [hl, hm]), by simp [hw, h.cqes], h.tail⟩
  | pollSend => simp [next, Qp.pollSend, h.cqes] at hn
  | pollRecv =>
    obtain ⟨-, ⟨⟩⟩ := ite_none_right_eq_some.mp hn
    exact h

/-- In `HERD_RPC` mode, without `sq_sig_all`, no send completes, and the tail stays. -/
theorem silent_of_reachable {qp : Qp} (hq : qp.Silent qp.tail)
    (h : (system ep credit qp).Reachable s) : s.qp.Silent qp.tail :=
  h.invariant (P := fun s => s.qp.Silent qp.tail) (fun _ hs => hs.1 ▸ hq)
    fun _ _ _ hi hn => silent_step ep credit hi hn

/-- An unused queue pair with 256 entries, created without `sq_sig_all`. -/
def idleQp : Qp := ⟨0, 0, 256, 1, false, true, [], []⟩

def casWr : SendWr := ⟨1, [⟨4096, 8, 1⟩], .atomic ⟨.cmpAndSwp, 128, 0, 7⟩ 1, .zero⟩

theorem idleQp_wellFormed : idleQp.WellFormed := by
  constructor
  · decide
  · simp [idleQp]
  · simp [idleQp]

theorem sustains_idleQp : Sustains firstQp (fun _ => 1) idleQp 256 :=
  (sustains_iff firstQp _ idleQp idleQp_wellFormed casWr (by decide) 256).mpr (by decide)

/-- The 257th atomic is refused although every completion there is has been polled. -/
theorem overflowed_idleQp : ∃ s, (system firstQp (fun _ => 1) idleQp).Reachable s ∧
    s.offloads = 257 ∧ s.overflowed = true ∧ s.qp.sendCqes = [] := by
  have hstart := start_init firstQp (fun _ => 1) idleQp
  obtain ⟨t, ht, ho, hf⟩ := exists_overflowed firstQp (fun _ => 1) (w := casWr) (n := 256)
    (by decide) hstart (by decide)
  have hr := System.Reachable.reaches (.start hstart) ht
  have hsilent : idleQp.Silent idleQp.tail := ⟨rfl, by simp [idleQp], rfl, rfl⟩
  exact ⟨t, hr, ho, hf, (silent_of_reachable firstQp _ hsilent hr).cqes⟩

end SendQueue
end Fusa.Driver

import Fusa.Server.Request
import Fusa.Lib.Transition

/-! Fetch-and-add by the RNIC, in `SequencerServer` and in `HerdServer::rpc_func_impl`. -/
namespace Fusa.Server.Sequencer
open Driver Function

/-- The scan of a request; the reply to a fetch-and-add is the value after the addition. -/
def handle (mem : ℕ → UInt64) (req resp : RpcOp) : Handled :=
  if req.opcode = casOpCode then Server.handle false mem req resp
  else if req.opcode = faaOpCode then
    let sequenceId := mem req.remoteAddr
    ⟨update mem req.remoteAddr (sequenceId + req.cmp), { req with crc := 0 },
      { resp with comp := sequenceId + req.cmp, crc := crcCheckMagic }⟩
  else ⟨mem, { req with crc := 0 }, resp⟩

/-- A fetch-and-add; with `rpc` its slot is encoded over `sendBuf` and answered over `resp`. -/
structure Post where
  rpc : Bool
  addend : UInt64
  swap : UInt64
  sendBuf : RpcOp
  machineId : ℕ
  qpn : ℕ
  respAddr : ℕ
  resp : RpcOp

namespace Post
variable (cell : ℕ) (p : Post)

def wr : AtomicWr := ⟨.fetchAndAdd, cell, p.addend, p.swap⟩

def req : RpcOp := encode p.sendBuf p.machineId p.qpn p.respAddr (p.wr cell)

/-- The memory left, and the value delivered to the requester. -/
def perform (mem : ℕ → UInt64) : (ℕ → UInt64) × UInt64 :=
  if p.rpc then ((handle mem (p.req cell) p.resp).mem, (handle mem (p.req cell) p.resp).resp.comp)
  else (p.wr cell).perform mem

end Post

variable (cell : ℕ)

def performAll : List Post → (ℕ → UInt64) → (ℕ → UInt64) × List UInt64
  | [], mem => (mem, [])
  | p :: ps, mem =>
    ((performAll ps (p.perform cell mem).1).1,
      (p.perform cell mem).2 :: (performAll ps (p.perform cell mem).1).2)

def before : List Post → UInt64 → List UInt64
  | [], _ => []
  | p :: ps, v => v :: before ps (v + p.addend)

theorem perform_mem (p : Post) (mem : ℕ → UInt64) :
    (p.perform cell mem).1 = update mem cell (mem cell + p.addend) := by
  unfold Post.perform
  cases p.rpc with
  | false => rfl
  | true => rfl

theorem perform_value (p : Post) (mem : ℕ → UInt64) :
    (p.perform cell mem).2 = if p.rpc then mem cell + p.addend else mem cell := by
  unfold Post.perform
  cases p.rpc with
  | false => rfl
  | true => rfl

theorem performAll_mem (ps : List Post) (mem : ℕ → UInt64) :
    (performAll cell ps mem).1 cell = mem cell + (ps.map (·.addend)).sum := by
  induction ps generalizing mem with
  | nil => simp [performAll]
  | cons p ps ih =>
    unfold performAll
    rw [ih, perform_mem, update_self, List.map_cons, List.sum_cons, add_assoc]

/-- Requesters get the value before their addition exactly when only zero is added at the server. -/
theorem delivered_iff (ps : List Post) (mem : ℕ → UInt64) :
    ((performAll cell ps mem).2 = before ps (mem cell) ∧
        (performAll cell ps mem).1 cell = mem cell + (ps.map (·.addend)).sum) ↔
      ∀ p ∈ ps, p.rpc = true → p.addend = 0 := by
  rw [and_iff_left (performAll_mem cell ps mem)]
  induction ps generalizing mem with
  | nil => simp [performAll, before]
  | cons p ps ih =>
    have hv : (p.perform cell mem).1 cell = mem cell + p.addend := by
      rw [perform_mem, update_self]
    have hp : (p.perform cell mem).2 = mem cell ↔ (p.rpc = true → p.addend = 0) := by
      rw [perform_value]
      cases p.rpc with
      | false => simp
      | true => simp
    unfold performAll before
    rw [List.cons.injEq, hp, ← hv, ih, List.forall_mem_cons]

def oneEach : List Post :=
  [⟨false, 1, 0, .zero, 0, 0, 0, .zero⟩, ⟨true, 1, 0, .zero, 0, 0, 0, .zero⟩]

/-- The second request gets 2, the number that a third one would get from the RNIC. -/
theorem not_delivered_oneEach : (performAll 64 oneEach fun _ => 0).2 = [0, 2] ∧
      (performAll 64 oneEach fun _ => 0).2 ≠ before oneEach 0 := by
  decide +kernel

end Fusa.Server.Sequencer

namespace Fusa.Server.HerdFaa
open Transition Function

/-- The cell, the threads between addition and reply, and, as history, additions and replies. -/
structure State (ι : Type*) where
  cell : UInt64
  added : ι → Bool
  adds : ℕ
  replies : List UInt64

/-- The two accesses of a thread to the cell for a request with opcode 10. -/
inductive Action (ι : Type*)
  | add (t : ι)
  | load (t : ι)

variable {ι : Type*} [DecidableEq ι]

def next (s : State ι) : Action ι → Option (State ι)
  | .add t =>
    if s.added t then none
    else some { s with
      cell := s.cell + 1, added := Function.update s.added t true, adds := s.adds + 1 }
  | .load t =>
    if s.added t then
      some { s with added := Function.update s.added t false, replies := s.replies ++ [s.cell] }
    else none

def system (ι : Type*) [DecidableEq ι] : System (State ι) (Action ι) where
  start s := s.added = (fun _ => false) ∧ s.adds = 0 ∧ s.replies = []
  next := next

/-- A thread adds only when no other is about to load, and there are enough numbers. -/
def Alone (s : State ι) : Action ι → Prop
  | .add _ => (∀ t, s.added t = false) ∧ s.adds < 2 ^ 64
  | .load _ => True

/-- The replies are the numbers that follow `v`, up to one about to be loaded. -/
structure Inv (v : UInt64) (s : State ι) : Prop where
  cell : s.cell = v + UInt64.ofNat s.adds
  adds : s.adds ≤ 2 ^ 64
  unique : ∀ t u, s.added t = true → s.added u = true → t = u
  idle : (∀ t, s.added t = false) →
    s.replies = (List.range s.adds).map fun i => v + UInt64.ofNat (i + 1)
  waits : ∀ t, s.added t = true → ∃ k, s.adds = k + 1 ∧
    s.replies = (List.range k).map fun i => v + UInt64.ofNat (i + 1)

variable {v : UInt64} {s : State ι}

theorem Inv.add (h : Inv v s) (ha : ∀ t, s.added t = false) (hlt : s.adds < 2 ^ 64) (t : ι) :
    Inv v { s with
      cell := s.cell + 1, added := update s.added t true, adds := s.adds + 1 } := by
  have honly : ∀ u, update s.added t true u = true → u = t := by
    intro u hu
    by_contra hne
    rw [update_of_ne hne, ha u] at hu
    cases hu
  constructor
  · rw [Wrap.ofNat_succ, ← add_assoc, ← h.cell]
  · exact hlt
  · intro u w hu hw
    rw [honly u hu, honly w hw]
  · intro hall
    have ht := hall t
    simp at ht
  · intro _ _
    exact ⟨s.adds, rfl, h.idle ha⟩

theorem Inv.load (h : Inv v s) {t : ι} (ht : s.added t = true) :
    Inv v { s with
      added := update s.added t false, replies := s.replies ++ [s.cell] } := by
  have hnone : ∀ u, update s.added t false u = false := by
    intro u
    by_cases hu : u = t
    · rw [hu, update_self]
    · rw [update_of_ne hu]
      by_contra hc
      exact hu (h.unique u t (Bool.eq_true_of_not_eq_false hc) ht)
  obtain ⟨k, hk, hr⟩ := h.waits t ht
  refine ⟨h.cell, h.adds, ?_, ?_, ?_⟩
  · intro u w hu
    exact absurd ((hnone u).symm.trans hu) Bool.false_ne_true
  · intro _
    rw [hr, h.cell, hk, List.range_succ, List.map_append]
    rfl
  · intro u hu
    exact absurd ((hnone u).symm.trans hu) Bool.false_ne_true

theorem inv_of_runWith (h : (system ι).RunWith Alone s) : ∃ v, Inv v s := by
  apply h.invariant (P := fun s => ∃ v, Inv v s)
  · rintro s ⟨ha, hadds, hr⟩
    refine ⟨s.cell, ?_, ?_, ?_, ?_, ?_⟩
    · rw [hadds]
      simp
    · rw [hadds]
      exact Nat.zero_le _
    · simp [ha]
    · intro _
      rw [hr, hadds]
      rfl
    · simp [ha]
  · rintro s a t ⟨v, hi⟩ hc hn
    cases a with
    | add u =>
      obtain ⟨-, ⟨⟩⟩ := Option.ite_none_left_eq_some.mp hn
      exact ⟨v, hi.add hc.1 hc.2 u⟩
    | load u =>
      simp only [system, next, Option.ite_none_right_eq_some, Option.some.injEq] at hn
      obtain ⟨hu, rfl⟩ := hn
      exact ⟨v, hi.load hu⟩

theorem nodup_numbers (v : UInt64) {n : ℕ} (hn : n ≤ 2 ^ 64) :
    ((List.range n).map fun i => v + UInt64.ofNat (i + 1)).Nodup := by
  apply List.Nodup.map_on _ List.nodup_range
  intro i hi j hj hij
  have hi := List.mem_range.mp hi
  have hj := List.mem_range.mp hj
  rw [add_right_inj, Wrap.ofNat_inj_iff] at hij
  omega

/-- The replies are distinct as long as each one is loaded before another thread adds. -/
theorem replies_nodup {s : State ι} (h : (system ι).RunWith Alone s) : s.replies.Nodup := by
  obtain ⟨v, hi⟩ := inv_of_runWith h
  have hadds := hi.adds
  by_cases hidle : ∀ t, s.added t = false
  · rw [hi.idle hidle]
    exact nodup_numbers v hadds
  · obtain ⟨t, ht⟩ := not_forall.mp hidle
    obtain ⟨k, hk, hr⟩ := hi.waits t (Bool.eq_true_of_not_eq_false ht)
    rw [hr]
    exact nodup_numbers v (by omega)

instance [Fintype ι] (s : State ι) (a : Action ι) : Decidable (Alone s a) := by
  cases a <;> unfold Alone <;> infer_instance

def boot : State (Fin 2) := ⟨0, fun _ => false, 0, []⟩

theorem boot_start : (system (Fin 2)).start boot := ⟨rfl, rfl, rfl⟩

theorem replies_nodup_inTurn : ∃ s, (system (Fin 2)).exec boot
    [.add 0, .load 0, .add 1, .load 1] = some s ∧ s.replies = [1, 2] ∧ s.replies.Nodup := by
  obtain ⟨s, hs, h, hr⟩ := (system (Fin 2)).exists_runWith Alone (·.replies = [1, 2]) boot_start
    [.add 0, .load 0, .add 1, .load 1] (by decide +kernel) (by decide +kernel)
  exact ⟨s, hs, hr, replies_nodup h⟩

/-- Two threads that both add before either of them loads. -/
theorem not_replies_nodup : ∃ s, (system (Fin 2)).Reachable s ∧ ¬ s.replies.Nodup := by
  obtain ⟨s, -, h⟩ := (system (Fin 2)).exists_reachable (¬ ·.replies.Nodup) boot_start
    [.add 0, .add 1, .load 0, .load 1] (by decide +kernel)
  exact ⟨s, h⟩

end Fusa.Server.HerdFaa

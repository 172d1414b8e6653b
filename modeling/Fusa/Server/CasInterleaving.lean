import Fusa.Lib.Transition
import Fusa.Server.Request

/-! Rpc threads executing accepted requests: one alone, and several interleaved at a CAS. -/
namespace Fusa.Server.Sequential
open Driver Transition

/-- Application memory and the response slots. -/
structure State where
  mem : ℕ → UInt64
  resp : ℕ → RpcOp

/-- A request slot the driver encoded, with the strategy arrays when the thread meets it. -/
structure Post where
  slot : ℕ
  sendBuf : RpcOp
  machineId : ℕ
  qpn : ℕ
  respAddr : ℕ
  wr : AtomicWr
  view : StrategyView

variable (machineNum : ℕ)

def Post.req (p : Post) : RpcOp := encode p.sendBuf p.machineId p.qpn p.respAddr p.wr

def Post.rejected (p : Post) : Bool := rejects machineNum p.view p.wr.remoteAddr

variable (s : State)

def handled (p : Post) : Handled := handle (p.rejected machineNum) s.mem p.req (s.resp p.slot)

def serve (p : Post) : State :=
  ⟨(handled machineNum s p).mem, Function.update s.resp p.slot (handled machineNum s p).resp⟩

def reply (p : Post) : UInt64 := ((serve machineNum s p).resp p.slot).comp

def system : System State Post where
  start _ := True
  next s p := some (serve machineNum s p)

/-- An accepted request is the RNIC's atomic; a rejected one changes nothing, and as a CAS does not
look like a success. -/
def Preserves (p : Post) : Prop :=
  if p.rejected machineNum = true then
    (serve machineNum s p).mem = s.mem ∧
      (p.wr.opcode = .cmpAndSwp → reply machineNum s p ≠ p.wr.compareAdd)
  else ((serve machineNum s p).mem, reply machineNum s p) = p.wr.perform s.mem

/-- A rejected CAS swaps in another value than it compares with; an accepted FAA adds nothing and
finds its cell's value left in the response slot. -/
def Meets (p : Post) : Prop :=
  match p.wr.opcode with
  | .cmpAndSwp => p.rejected machineNum = true → p.wr.swap ≠ p.wr.compareAdd
  | .fetchAndAdd => p.rejected machineNum = false →
      p.wr.compareAdd = 0 ∧ (s.resp p.slot).comp = s.mem p.wr.remoteAddr

variable {machineNum} {s : State} {p : Post}

@[simp] theorem Post.req_opcode (p : Post) : p.req.opcode = p.wr.opcode.code := rfl

@[simp] theorem Post.req_swap (p : Post) : p.req.swap = p.wr.swap := rfl

theorem handled_cas (h : p.wr.opcode = .cmpAndSwp) (hr : p.rejected machineNum = false) :
    ((serve machineNum s p).mem, reply machineNum s p) = p.wr.perform s.mem := by
  have hop : p.req.opcode = casOpCode := by rw [Post.req_opcode, h]; rfl
  simp only [reply, serve, handled, hr, handle_cas _ _ hop, Function.update_self,
    AtomicWr.perform, h]
  rfl

theorem handled_cas_reject (h : p.wr.opcode = .cmpAndSwp) (hr : p.rejected machineNum = true) :
    (serve machineNum s p).mem = s.mem ∧ reply machineNum s p = p.wr.swap := by
  have hop : p.req.opcode = casOpCode := by rw [Post.req_opcode, h]; rfl
  simp [reply, serve, handled, hr, handle_cas_reject _ _ hop]

variable (machineNum s) in
theorem handled_faa (h : p.wr.opcode = .fetchAndAdd) :
    (serve machineNum s p).mem = s.mem ∧ reply machineNum s p = (s.resp p.slot).comp := by
  have hop : p.req.opcode = faaOpCode := by rw [Post.req_opcode, h]; rfl
  simp [reply, serve, handled, handle_faa _ _ _ hop]

theorem preserves_iff_meets (s : State) (p : Post) :
    Preserves machineNum s p ↔ Meets machineNum s p := by
  cases hop : p.wr.opcode with
  | cmpAndSwp =>
    cases hr : p.rejected machineNum with
    | true =>
      obtain ⟨hm, hv⟩ := handled_cas_reject (s := s) hop hr
      simp [Preserves, Meets, hop, hr, hm, hv]
    | false => simp [Preserves, Meets, hop, hr, handled_cas hop hr]
  | fetchAndAdd =>
    obtain ⟨hm, hv⟩ := handled_faa machineNum s hop
    cases hr : p.rejected machineNum with
    | true => simp [Preserves, Meets, hop, hr, hm]
    | false => simp [Preserves, Meets, hop, hr, hm, hv, AtomicWr.perform]

/-- Offloading preserves the RNIC's semantics exactly when each request meets the condition. -/
theorem offload_preserves_iff (machineNum : ℕ) (s : State) (ps : List Post) :
    (system machineNum).AllSteps (Preserves machineNum) s ps ↔
      (system machineNum).AllSteps (Meets machineNum) s ps :=
  System.allSteps_congr preserves_iff_meets s ps

/-- An FAA of 1 on a fresh region with every credit switched to the CPU. -/
theorem not_preserves_faa : ¬ (system 1).AllSteps (Preserves 1) ⟨fun _ => 0, fun _ => .zero⟩
      [⟨0, .zero, 0, 0, 0, ⟨.fetchAndAdd, 0, 1, 0⟩, ⟨fun _ => 1, fun _ => 1, 0⟩⟩] := by
  intro h
  have hm := (preserves_iff_meets _ _).mp h.1
  exact absurd (hm rfl).1 (by decide)

end Fusa.Server.Sequential

namespace Fusa.Server.CasInterleaving
open Driver Transition Function

/-- A thread stands before its load, its compare-exchange, or the load that fills the reply. -/
inductive Pc
  | idle
  | load (req : RpcOp)
  | exchange (req : RpcOp)
  | reload (req : RpcOp)

/-- A finished request, the value replied and whether its compare-exchange took place. -/
structure Done where
  req : RpcOp
  comp : UInt64
  swapped : Bool

structure State (ι : Type*) where
  mem : ℕ → UInt64
  pc : ι → Pc
  done : List Done

inductive Action (ι : Type*)
  | accept (t : ι) (req : RpcOp)
  | load (t : ι)
  | exchange (t : ι)
  | reload (t : ι)
  | write (addr : ℕ) (v : UInt64)

variable {ι : Type*} [DecidableEq ι]

def State.goto (s : State ι) (t : ι) (pc : Pc) : State ι :=
  { s with pc := update s.pc t pc }

def State.reply (s : State ι) (t : ι) (mem : ℕ → UInt64) (d : Done) : State ι :=
  ⟨mem, update s.pc t .idle, d :: s.done⟩

def next (s : State ι) : Action ι → Option (State ι)
  | .accept t req =>
    match s.pc t with
    | .idle => if req.opcode = casOpCode then some (s.goto t (.load req)) else none
    | _ => none
  | .load t =>
    match s.pc t with
    | .load req =>
      some (s.goto t (if s.mem req.remoteAddr = req.cmp then .exchange req else .reload req))
    | _ => none
  | .exchange t =>
    match s.pc t with
    | .exchange req =>
      let (ok, mem, cmp) := compareExchange s.mem req.remoteAddr req.cmp req.swap
      some (s.reply t mem ⟨req, cmp, ok⟩)
    | _ => none
  | .reload t =>
    match s.pc t with
    | .reload req => some (s.reply t s.mem ⟨req, s.mem req.remoteAddr, false⟩)
    | _ => none
  | .write addr v => some { s with mem := update s.mem addr v }

def system (ι : Type*) [DecidableEq ι] : System (State ι) (Action ι) where
  start s := (∀ t, s.pc t = .idle) ∧ s.done = []
  next := next

/-- The reply equals the compared value exactly for the requests that swapped. -/
def Linearizable (s : State ι) : Prop := ∀ d ∈ s.done, d.comp = d.req.cmp ↔ d.swapped = true

/-- The second load after a mismatch does not find the compared value. -/
def StillDiffers (s : State ι) : Action ι → Prop
  | .reload t => ∀ req, s.pc t = .reload req → s.mem req.remoteAddr ≠ req.cmp
  | _ => True

/-- What a step does: it moves a thread, writes a cell, or finishes a request. -/
inductive Step (s : State ι) : Action ι → State ι → Prop
  | accept {t : ι} {req : RpcOp} (hpc : s.pc t = .idle) (hop : req.opcode = casOpCode) :
      Step s (.accept t req) (s.goto t (.load req))
  | load {t : ι} {req : RpcOp} (hpc : s.pc t = .load req) : Step s (.load t)
      (s.goto t (if s.mem req.remoteAddr = req.cmp then .exchange req else .reload req))
  | swap {t : ι} {req : RpcOp} (hpc : s.pc t = .exchange req)
      (hc : s.mem req.remoteAddr = req.cmp) : Step s (.exchange t)
      (s.reply t (update s.mem req.remoteAddr req.swap) ⟨req, req.cmp, true⟩)
  | lost {t : ι} {req : RpcOp} (hpc : s.pc t = .exchange req)
      (hc : s.mem req.remoteAddr ≠ req.cmp) : Step s (.exchange t)
      (s.reply t s.mem ⟨req, s.mem req.remoteAddr, false⟩)
  | reload {t : ι} {req : RpcOp} (hpc : s.pc t = .reload req) :
      Step s (.reload t) (s.reply t s.mem ⟨req, s.mem req.remoteAddr, false⟩)
  | write (addr : ℕ) (v : UInt64) :
      Step s (.write addr v) { s with mem := update s.mem addr v }

variable {a : Action ι}

theorem step_of_next {s u : State ι} (h : next s a = some u) : Step s a u := by
  cases a with
  | accept t req =>
    cases hpc : s.pc t <;> simp only [next, hpc, reduceCtorEq] at h
    obtain ⟨hop, rfl⟩ : _ ∧ _ := by simpa using h
    exact .accept hpc hop
  | load t =>
    cases hpc : s.pc t <;> simp only [next, hpc, reduceCtorEq, Option.some.injEq] at h
    exact h ▸ .load hpc
  | exchange t =>
    cases hpc : s.pc t <;> simp only [next, hpc, reduceCtorEq, Option.some.injEq] at h
    rename_i req
    by_cases hc : s.mem req.remoteAddr = req.cmp
    · simp only [compareExchange, hc, if_true] at h
      exact h ▸ .swap hpc hc
    · simp only [compareExchange, hc, if_false] at h
      exact h ▸ .lost hpc hc
  | reload t =>
    cases hpc : s.pc t <;> simp only [next, hpc, reduceCtorEq, Option.some.injEq] at h
    exact h ▸ .reload hpc
  | write addr v =>
    simp only [next, Option.some.injEq] at h
    exact h ▸ .write addr v

theorem linearizable_reply (s : State ι) (t : ι) (mem : ℕ → UInt64) (d : Done) :
    Linearizable (s.reply t mem d) ↔ (d.comp = d.req.cmp ↔ d.swapped = true) ∧ Linearizable s := by
  simp [Linearizable, State.reply]

theorem linearizable_step {s u : State ι} (h : next s a = some u) :
    Linearizable u ↔ Linearizable s ∧ StillDiffers s a := by
  cases step_of_next h with
  | accept | load => simp [Linearizable, State.goto, StillDiffers]
  | swap => simp [linearizable_reply, StillDiffers]
  | lost _ hc => simp [linearizable_reply, StillDiffers, hc]
  | reload hpc => simp [linearizable_reply, StillDiffers, hpc, and_comm]
  | write => simp [Linearizable, StillDiffers]

/-- All replies are true exactly when no load after a failed comparison finds the compared value. -/
theorem linearizable_iff {s u : State ι} (h0 : (system ι).start s) {as : List (Action ι)}
    (he : (system ι).exec s as = some u) :
    Linearizable u ↔ (system ι).AllSteps StillDiffers s as := by
  have hs : Linearizable s := by simp [Linearizable, h0.2]
  rw [System.exec_iff_allSteps (fun _ _ _ => linearizable_step) he]
  exact and_iff_right hs

def fresh (ι : Type) : State ι := ⟨fun _ => 0, fun _ => .idle, []⟩

theorem fresh_start (ι : Type) [DecidableEq ι] : (system ι).start (fresh ι) := ⟨fun _ => rfl, rfl⟩

def casRequest (cmp swap : UInt64) : RpcOp := { RpcOp.zero with opcode := casOpCode, cmp, swap }

/-- One thread swaps between the two loads of the other. -/
def bothLoads : List (Action Bool) :=
  [.accept false (casRequest 0 7), .accept true (casRequest 5 9), .load true, .load false,
    .exchange false, .reload true]

theorem linearizable_bothLoads : ∃ u, (system Bool).start (fresh Bool) ∧
    (system Bool).exec (fresh Bool) bothLoads = some u ∧
    u.done.map (·.comp) = [7, 0] ∧ Linearizable u := by
  obtain ⟨u, hu, hd⟩ : ∃ u, (system Bool).exec (fresh Bool) bothLoads = some u ∧
    u.done.map (·.comp) = [7, 0] := ⟨_, rfl, rfl⟩
  refine ⟨u, fresh_start Bool, hu, hd, (linearizable_iff (fresh_start Bool) hu).mpr ?_⟩
  iterate 5
    refine ⟨trivial, ?_⟩
    rintro _ ⟨⟩
  refine ⟨?_, fun _ _ => trivial⟩
  rintro _ ⟨⟩
  decide

/-- A writer stores the compared value between the loads: the reply claims a swap that was not. -/
theorem not_linearizable_reload :
    ∃ u : State Unit, (system Unit).Reachable u ∧ ¬ Linearizable u := by
  refine ⟨_, (System.Reachable.start (fresh_start Unit)).exec
    [.accept () (casRequest 5 7), .load (), .write 0 5, .reload ()] rfl, ?_⟩
  intro h
  exact absurd ((h _ (List.mem_cons_self ..)).mp rfl) (by decide)

end Fusa.Server.CasInterleaving

import Fusa.Lib.Transition
import Fusa.Rpc.Lifecycle

/-! All queue pairs and rpc threads of a server in `FUSA_RPC` mode, over flat memory. -/
namespace Fusa.Rpc.FusaRpc
open Driver Server Transition Function Option

/-- Request and response slots at the server, receive slots at machines; `owner` wrote last. -/
structure State where
  mem : ℕ → UInt64
  req : ℕ → RpcOp
  owner : ℕ → ℕ
  resp : ℕ → RpcOp
  recv : ℕ → ℕ → RpcOp
  qp : ℕ × ℕ → Qp
  pos : ℕ → ScanPos

inductive QpAction
  | post (sendBuf : RpcOp) (wr : AtomicWr)
  | arrive
  | deliver
  | poll

inductive Action
  | qp (m i : ℕ) (a : QpAction)
  | scan (t : ℕ) (reject : Bool)
  | write (addr : ℕ) (v : UInt64)

variable (cfg : Config)

namespace State

def setQp (s : State) (m i : ℕ) (q : Qp) : State :=
  { s with qp := update s.qp (m, i) q }

def setRecv (s : State) (m a : ℕ) (op : RpcOp) : State :=
  { s with recv := update s.recv m (update (s.recv m) a op) }

/-- A step of queue pair `i` on machine `m`: the call spins for the magic in its receive slot. -/
def qpStep (s : State) (m i : ℕ) : QpAction → Option State
  | .post sendBuf wr =>
    match (s.qp (m, i)).waiting with
    | some _ => none
    | none => some (s.setQp m i ((s.qp (m, i)).post cfg m i sendBuf wr))
  | .arrive =>
    match (s.qp (m, i)).wire with
    | [] => none
    | f :: wire =>
      some { s.setQp m i { s.qp (m, i) with wire } with
        req := update s.req f.addr f.op
        owner := update s.owner f.addr f.number }
  | .deliver =>
    match (s.qp (m, i)).replies with
    | [] => none
    | (r, a) :: replies =>
      some ((s.setQp m i { s.qp (m, i) with replies }).setRecv m a (s.resp r))
  | .poll =>
    match (s.qp (m, i)).waiting with
    | none => none
    | some a =>
      if (s.recv m a).crc = crcCheckMagic then
        some ((s.setQp m i { s.qp (m, i) with
          waiting := none, returned := (s.qp (m, i)).returned ++ [(s.recv m a).comp] }).setRecv m a
            { s.recv m a with crc := 0 })
      else none

/-- The scan of a slot that holds a request; with `thread_qp_batch` 1 it replies at once. -/
def handleAt (s : State) (p : ScanPos) (reject : Bool) : State :=
  let a := cfg.region.scanAddr p.k p.i p.j
  let r := cfg.respAddr p.k p.i p.j
  let h := handle reject s.mem (s.req a) (s.resp r)
  { s.setQp p.k p.i ((s.qp (p.k, p.i)).serve r (s.req a)
      (outcome reject s.mem (s.req a) (s.resp r) (s.owner a))) with
    mem := h.mem
    req := update s.req a h.req
    resp := update s.resp r h.resp }

def visit (s : State) (p : ScanPos) (reject : Bool) : State :=
  if (s.req (cfg.region.scanAddr p.k p.i p.j)).crc = crcCheckMagic then s.handleAt cfg p reject
  else s

end State

/-- What a step of queue pair `i` of machine `m` does. -/
inductive QpStep (s : State) (m i : ℕ) : QpAction → State → Prop
  | post {sendBuf : RpcOp} {wr : AtomicWr} (hw : (s.qp (m, i)).waiting = none) :
      QpStep s m i (.post sendBuf wr) (s.setQp m i ((s.qp (m, i)).post cfg m i sendBuf wr))
  | arrive {f : InFlight} {wire : List InFlight} (hw : (s.qp (m, i)).wire = f :: wire) :
      QpStep s m i .arrive { s.setQp m i { s.qp (m, i) with wire } with
        req := update s.req f.addr f.op, owner := update s.owner f.addr f.number }
  | deliver {r a : ℕ} {replies : List (ℕ × ℕ)} (hr : (s.qp (m, i)).replies = (r, a) :: replies) :
      QpStep s m i .deliver
        ((s.setQp m i { s.qp (m, i) with replies }).setRecv m a (s.resp r))
  | poll {a : ℕ} (hw : (s.qp (m, i)).waiting = some a) (hc : (s.recv m a).crc = crcCheckMagic) :
      QpStep s m i .poll ((s.setQp m i { s.qp (m, i) with
        waiting := none, returned := (s.qp (m, i)).returned ++ [(s.recv m a).comp] }).setRecv m a
          { s.recv m a with crc := 0 })

theorem qpStep_cases {cfg : Config} {s t : State} {m i : ℕ} {a : QpAction}
    (hn : s.qpStep cfg m i a = some t) : QpStep cfg s m i a t := by
  cases a <;> simp only [State.qpStep] at hn <;> split at hn
  · cases hn
  · exact some.inj hn ▸ .post ‹_›
  · cases hn
  · exact some.inj hn ▸ .arrive ‹_›
  · cases hn
  · exact some.inj hn ▸ .deliver ‹_›
  · cases hn
  · obtain ⟨hc, hn⟩ := ite_none_right_eq_some.mp hn
    exact some.inj hn ▸ .poll ‹_› hc

def nextPos (t : ℕ) (p : ScanPos) : ScanPos :=
  p.next cfg.region.machineNum cfg.region.rpcThreadNum cfg.window t

def next (s : State) : Action → Option State
  | .qp m i a =>
    if m < cfg.region.machineNum ∧ i < maxRecorderNum then s.qpStep cfg m i a else none
  | .scan t reject =>
    if t < cfg.region.rpcThreadNum then
      some { s.visit cfg (s.pos t) reject with
        pos := update s.pos t (nextPos cfg t (s.pos t)) }
    else none
  | .write addr v => some { s with mem := update s.mem addr v }

def ValidPos (t : ℕ) (p : ScanPos) : Prop :=
  p.Valid cfg.region.machineNum cfg.region.rpcThreadNum cfg.window t

def system : System State Action where
  start s := (∀ x, s.qp x = .fresh) ∧ (∀ a, (s.req a).crc = 0) ∧ (∀ m a, (s.recv m a).crc = 0) ∧
    ∀ t < cfg.region.rpcThreadNum, ValidPos cfg t (s.pos t)
  next := next cfg

def State.view (s : State) (m i : ℕ) : View cfg m where
  qp := s.qp (m, i)
  req j := s.req (cfg.reqAt m i j)
  owner j := s.owner (cfg.reqAt m i j)
  resp j := s.resp (cfg.respAt m i j)
  recv l := s.recv m (cfg.recvAt m i l)

structure Inv (s : State) : Prop where
  view : ∀ m i, m < cfg.region.machineNum → i < maxRecorderNum → (s.view cfg m i).Inv i
  pos : ∀ t < cfg.region.rpcThreadNum, ValidPos cfg t (s.pos t)

/-- A step that changes only what belongs to queue pair `i` of machine `m`. -/
structure Touches (s t : State) (m i : ℕ) : Prop where
  qp : ∀ x, x ≠ (m, i) → t.qp x = s.qp x
  req : ∀ a, (∀ j, a ≠ cfg.reqAt m i j) → t.req a = s.req a ∧ t.owner a = s.owner a
  resp : ∀ a, (∀ j, a ≠ cfg.respAt m i j) → t.resp a = s.resp a
  recv : ∀ m' a, (m' = m → ∀ l, a ≠ cfg.recvAt m i l) → t.recv m' a = s.recv m' a

variable {cfg} {s t : State} {m i a : ℕ}

theorem Touches.view_eq {m' i' : ℕ} (h : Touches cfg s t m i) (hi : i < maxRecorderNum)
    (hi' : i' < maxRecorderNum) (hne : (m', i') ≠ (m, i)) :
    t.view cfg m' i' = s.view cfg m' i' := by
  have hreq : ∀ j, (∀ j', cfg.reqAt m' i' j ≠ cfg.reqAt m i j') := fun j j' he => by
    obtain ⟨rfl, rfl, -⟩ := Config.reqAt_inj hi' hi he
    exact hne rfl
  have hresp : ∀ j, (∀ j', cfg.respAt m' i' j ≠ cfg.respAt m i j') := fun j j' he => by
    obtain ⟨rfl, rfl, -⟩ := Config.respAt_inj hi' hi he
    exact hne rfl
  have hrecv : ∀ l, m' = m → ∀ l', cfg.recvAt m' i' l ≠ cfg.recvAt m i l' := by
    rintro l rfl l' he
    obtain ⟨rfl, -⟩ := Config.recvAt_inj he
    exact hne rfl
  simp only [State.view, View.mk.injEq]
  exact ⟨h.qp _ hne, funext fun j => (h.req _ (hreq j)).1, funext fun j => (h.req _ (hreq j)).2,
    funext fun j => h.resp _ (hresp j), funext fun l => h.recv _ _ (hrecv l)⟩

theorem Inv.of_touches (h : Inv cfg s) (ht : Touches cfg s t m i) (hi : i < maxRecorderNum)
    (hv : (t.view cfg m i).Inv i) (hpos : ∀ u < cfg.region.rpcThreadNum, ValidPos cfg u (t.pos u)) :
    Inv cfg t := by
  refine ⟨fun m' i' hm' hi' => ?_, hpos⟩
  by_cases he : (m', i') = (m, i)
  · obtain ⟨rfl, rfl⟩ := Prod.mk.inj he
    exact hv
  · rw [ht.view_eq hi hi' he]
    exact h.view m' i' hm' hi'

theorem Inv.start (h : (system cfg).start s) : Inv cfg s := by
  obtain ⟨hqp, hreq, hrecv, hpos⟩ := h
  refine ⟨fun m i _ _ => ?_, hpos⟩
  have hv : (s.view cfg m i).qp = .fresh := hqp (m, i)
  refine ⟨by simp [hv, Qp.fresh], by simp [hv, Qp.fresh], by simp [hv, Qp.fresh, Numbered.From],
    by simp [hv, Qp.fresh, Numbered.From], .idle (hv ▸ rfl) (hv ▸ rfl)
      (hv ▸ rfl) (fun j => ?_) (fun l hl => ?_) (hv ▸ rfl) (hv ▸ rfl)⟩
  · simp [State.view, hreq, crcCheckMagic]
  · simp [State.view, hrecv, crcCheckMagic] at hl

theorem Touches.setQp (s : State) (m i : ℕ) (q : Qp) : Touches cfg s (s.setQp m i q) m i where
  qp x hx := by simp [State.setQp, hx]
  req _ _ := ⟨rfl, rfl⟩
  resp _ _ := rfl
  recv _ _ _ := rfl

theorem Touches.setRecv (h : Touches cfg s t m i) (l : Fin (cfg.recvNum m)) (op : RpcOp) :
    Touches cfg s (t.setRecv m (cfg.recvAt m i l) op) m i where
  qp := h.qp
  req := h.req
  resp := h.resp
  recv m' a ha := by
    rw [← h.recv m' a ha]
    by_cases hm : m' = m
    · subst hm
      simp [State.setRecv, ha rfl l]
    · simp [State.setRecv, hm]

section
variable (h : Inv cfg s) (hm : m < cfg.region.machineNum) (hi : i < maxRecorderNum)
include h hm hi

theorem Inv.arrive {f : InFlight} {wire : List InFlight} (hw : (s.qp (m, i)).wire = f :: wire) :
    Inv cfg { s.setQp m i { s.qp (m, i) with wire } with
      req := update s.req f.addr f.op
      owner := update s.owner f.addr f.number } := by
  obtain ⟨j, ha, -, hv⟩ := (h.view m i hm hi).wire_target hw
  rw [ha]
  refine h.of_touches (m := m) (i := i) ⟨fun x hx => by simp [State.setQp, hx], fun a hne => ?_,
    fun _ _ => rfl, fun _ _ _ => rfl⟩ hi ?_ h.pos
  · simp [hne j]
  · convert hv
    simp only [State.view, State.setQp, View.arrive, update_self, View.mk.injEq, true_and, and_true]
    exact ⟨update_comp_eq_of_injective _ (Config.reqAt_injective hi) _ _,
      update_comp_eq_of_injective _ (Config.reqAt_injective hi) _ _⟩

theorem Inv.deliver {r : ℕ} {replies : List (ℕ × ℕ)}
    (hr : (s.qp (m, i)).replies = (r, a) :: replies) :
    Inv cfg ((s.setQp m i { s.qp (m, i) with replies }).setRecv m a (s.resp r)) := by
  obtain ⟨j, l, rfl, rfl, hv⟩ := (h.view m i hm hi).reply_target hr
  refine h.of_touches ((Touches.setQp s m i _).setRecv l _) hi ?_ h.pos
  convert hv
  simp only [State.view, State.setQp, State.setRecv, View.deliver, update_self,
    View.mk.injEq, true_and]
  exact update_comp_eq_of_injective _ Config.recvAt_injective _ _

theorem Inv.poll (hw : (s.qp (m, i)).waiting = some a) (hc : (s.recv m a).crc = crcCheckMagic) :
    Inv cfg ((s.setQp m i { s.qp (m, i) with
      waiting := none, returned := (s.qp (m, i)).returned ++ [(s.recv m a).comp] }).setRecv m a
        { s.recv m a with crc := 0 }) := by
  obtain ⟨l, rfl⟩ := (h.view m i hm hi).spinning_at hw
  refine h.of_touches ((Touches.setQp s m i _).setRecv l _) hi ?_ h.pos
  convert (h.view m i hm hi).poll hw hc
  simp only [State.view, State.setQp, State.setRecv, View.poll, update_self,
    View.mk.injEq, true_and]
  exact update_comp_eq_of_injective _ Config.recvAt_injective _ _

theorem Inv.handleAt (j : Fin cfg.window) (hc : (s.req (cfg.reqAt m i j)).crc = crcCheckMagic)
    (reject : Bool) : Inv cfg (s.handleAt cfg ⟨m, i, j⟩ reject) := by
  refine h.of_touches (m := m) (i := i) ⟨fun x hx => by simp [State.handleAt, State.setQp, hx],
    fun a ha => ⟨update_of_ne (ha j) _ _, rfl⟩,
    fun a ha => update_of_ne (ha j) _ _, fun _ _ _ => rfl⟩ hi ?_ h.pos
  convert (h.view m i hm hi).serve (j := j) hc reject s.mem
  simp only [State.view, State.setQp, State.handleAt, View.serve, update_self,
    View.mk.injEq, true_and, and_true]
  exact ⟨rfl, update_comp_eq_of_injective _ (Config.reqAt_injective hi) _ _,
    update_comp_eq_of_injective _ (Config.respAt_injective hi) _ _⟩

end

theorem ValidPos.slot {t : ℕ} {p : ScanPos} (ht : t < cfg.region.rpcThreadNum)
    (h : ValidPos cfg t p) :
    p.k < cfg.region.machineNum ∧ p.i < maxRecorderNum ∧ p.j < cfg.window := by
  obtain ⟨hk, hidx, hj⟩ := h
  exact ⟨hk, (Region.scannedAs_driverSlot cfg.threads ⟨ht, hk, hidx, hj⟩).2.1, hj⟩

theorem Inv.visit (h : Inv cfg s) {t : ℕ} (ht : t < cfg.region.rpcThreadNum) (reject : Bool) :
    Inv cfg (s.visit cfg (s.pos t) reject) := by
  obtain ⟨hk, hi, hj⟩ := (h.pos t ht).slot ht
  unfold State.visit
  split
  · rename_i hc
    exact h.handleAt hk hi ⟨(s.pos t).j, hj⟩ hc reject
  · exact h

theorem Inv.step (h : Inv cfg s) {a : Action} (hn : next cfg s a = some t) : Inv cfg t := by
  cases a with
  | qp m i a =>
    obtain ⟨hg, hn⟩ := ite_none_right_eq_some.mp hn
    obtain ⟨hm, hi⟩ := hg
    cases qpStep_cases hn with
    | @post sendBuf wr hw =>
      refine h.of_touches (Touches.setQp s m i _) hi ?_ h.pos
      convert (h.view m i hm hi).post hw sendBuf wr
      simp [State.view, State.setQp, View.post]
    | arrive hw => exact h.arrive hm hi hw
    | deliver hr => exact h.deliver hm hi hr
    | poll hw hc => exact h.poll hm hi hw hc
  | scan u reject =>
    obtain ⟨hu, ⟨⟩⟩ := ite_none_right_eq_some.mp hn
    refine ⟨(h.visit hu reject).view, fun w hw => ?_⟩
    by_cases hwu : w = u
    · subst hwu
      simp only [update_self]
      exact (h.pos w hw).next
    · simpa [hwu] using h.pos w hw
  | write addr v => exact some.inj hn ▸ ⟨h.view, h.pos⟩

end Fusa.Rpc.FusaRpc

import Fusa.Rpc.ExactlyOnce

/-! A run of `FUSA_RPC` is a run of a service that performs each atomic at one moment. -/
namespace Fusa.Rpc.FusaRpc
open Driver Server Transition Function List

/-- What a queue pair waits for. -/
inductive Call
  | idle
  | posted (wr : AtomicWr)
  | done (v : UInt64)

structure Client where
  call : Call
  returned : List UInt64

structure Service where
  mem : ℕ → UInt64
  client : ℕ × ℕ → Client

inductive Event
  | post (x : ℕ × ℕ) (wr : AtomicWr)
  | take (x : ℕ × ℕ) (reject : Bool)
  | ret (x : ℕ × ℕ)
  | write (addr : ℕ) (v : UInt64)

/-- A rejected request has no effect and gets its `swap` back. -/
def Service.next (p : Service) : Event → Option Service
  | .post x wr =>
    match p.client x with
    | ⟨.idle, vs⟩ => some { p with client := update p.client x ⟨.posted wr, vs⟩ }
    | _ => none
  | .take x reject =>
    match p.client x with
    | ⟨.posted wr, vs⟩ =>
      let r := if reject then (p.mem, wr.swap) else wr.perform p.mem
      some ⟨r.1, update p.client x ⟨.done r.2, vs⟩⟩
    | _ => none
  | .ret x =>
    match p.client x with
    | ⟨.done v, vs⟩ => some { p with client := update p.client x ⟨.idle, vs ++ [v]⟩ }
    | _ => none
  | .write addr v => some { p with mem := update p.mem addr v }

def service : System Service Event where
  start p := ∀ x, p.client x = ⟨.idle, []⟩
  next := Service.next

def Event.visible : Event → Option Event
  | .take .. => none
  | e => some e

def Action.visible : Action → Option Event
  | .qp m i (.post _ wr) => some (.post (m, i) wr)
  | .qp m i .poll => some (.ret (m, i))
  | .write addr v => some (.write addr v)
  | _ => none

def Carries (wr : AtomicWr) (op : RpcOp) : Prop :=
  op.opcode = wr.opcode.code ∧ op.cmp = wr.compareAdd ∧ op.swap = wr.swap ∧
    op.remoteAddr = wr.remoteAddr

/-- The queue pair and its ring while its call stands so. -/
def Stands {n : ℕ} (q : Qp) (ring : Fin n → RpcOp) : Call → Prop
  | .idle => q.returned.length = q.posted
  | .posted wr => q.served.length < q.posted ∧ wr.opcode = .cmpAndSwp ∧
    (∀ f ∈ q.wire, Carries wr f.op) ∧ ∀ j, (ring j).crc = crcCheckMagic → Carries wr (ring j)
  | .done v => q.returned.length < q.served.length ∧
    q.served.getLast?.bind Served.comp = some v

structure Refines (cfg : Config) (s : State) (cl : ℕ × ℕ → Client) : Prop where
  inv : Inv cfg s
  client : ∀ m < cfg.region.machineNum, ∀ i < maxRecorderNum, ∃ c,
    cl (m, i) = ⟨c, (s.qp (m, i)).returned⟩ ∧ Stands (s.qp (m, i)) (s.view cfg m i).req c

section
variable {cfg : Config} {s t : State} {cl : ℕ × ℕ → Client} {m i : ℕ} {c : Call} {u : Qp}
  (h : Refines cfg s cl) (hinv : Inv cfg t) (hm : m < cfg.region.machineNum)
  (hi : i < maxRecorderNum)
include h hinv hi

/-- Only queue pair `i` of machine `m` goes on. -/
theorem Refines.set (hqp : t.qp = update s.qp (m, i) u)
    (hreq : ∀ a, (∀ j, a ≠ cfg.reqAt m i j) → t.req a = s.req a)
    (hown : Stands u (t.view cfg m i).req c) :
    Refines cfg t (update cl (m, i) ⟨c, u.returned⟩) := by
  refine ⟨hinv, fun m' hm' i' hi' => ?_⟩
  rw [hqp]
  by_cases hx : (m', i') = (m, i)
  · cases hx
    exact ⟨c, by simp, by rwa [update_self]⟩
  · obtain ⟨c', hc', hst⟩ := h.client m' hm' i' hi'
    have hring : (t.view cfg m' i').req = (s.view cfg m' i').req := by
      refine funext fun k => hreq _ fun j he => hx ?_
      obtain ⟨rfl, rfl, -⟩ := Config.reqAt_inj hi' hi he
      rfl
    rw [update_of_ne hx, update_of_ne hx, hring]
    exact ⟨c', hc', hst⟩

include hm

theorem Refines.post {sendBuf : RpcOp} {wr : AtomicWr} (hcas : wr.opcode = .cmpAndSwp)
    (hw : (s.qp (m, i)).waiting = none) (hreq : t.req = s.req)
    (hqp : t.qp = update s.qp (m, i) ((s.qp (m, i)).post cfg m i sendBuf wr)) :
    ∃ cl', Service.next ⟨s.mem, cl⟩ (.post (m, i) wr) = some ⟨s.mem, cl'⟩ ∧ Refines cfg t cl' := by
  obtain ⟨c, hcl, hc⟩ := h.client m hm i hi
  cases (h.inv.view m i hm hi).phase with
  | idle _ hwire _ hring _ hs hr =>
    simp only [State.view] at hwire hring hs hr
    cases c with
    | posted | done => exact absurd hc.1 (by omega)
    | idle =>
      refine ⟨_, by simp only [Service.next, hcl]; rfl,
        h.set (c := .posted wr) hinv hi hqp (fun _ _ => by rw [hreq])
          ⟨?_, hcas, fun f hf => ?_, fun j hj => ?_⟩⟩
      · simp [Qp.post, hs]
      · simp only [Qp.post, hwire, nil_append, mem_singleton] at hf
        rw [hf]
        exact ⟨rfl, rfl, rfl, rfl⟩
      · simp only [State.view, hreq] at hj
        exact absurd ((hring j).mp hj) (by simp)
  | _ _ hsp => exact absurd (hw.symm.trans hsp.waiting) (by simp)

theorem Refines.poll {v : UInt64} (hreq : t.req = s.req) (hqp : t.qp = update s.qp (m, i)
      { s.qp (m, i) with waiting := none, returned := (s.qp (m, i)).returned ++ [v] }) :
    ∃ cl', Service.next ⟨s.mem, cl⟩ (.ret (m, i)) = some ⟨s.mem, cl'⟩ ∧ Refines cfg t cl' := by
  obtain ⟨c, hcl, hc⟩ := h.client m hm i hi
  have hnew := hinv.view m i hm hi
  have hacc := hnew.accounted
  have hold := (h.inv.view m i hm hi).accounted
  obtain ⟨d, hd, hcomp⟩ := hnew.values.get (n := (s.qp (m, i)).returned.length) (x := v)
    (by simp [State.view, hqp])
  simp only [State.view, hqp, update_self, length_append, length_singleton,
    Nat.zero_add] at hacc hold hd
  cases c with
  | idle | posted =>
    simp only [Stands] at hc
    omega
  | done w =>
    obtain ⟨-, hlast⟩ := hc
    have hk : (s.qp (m, i)).served.length - 1 = (s.qp (m, i)).returned.length := by omega
    rw [List.getLast?_eq_getElem?, hk, hd] at hlast
    obtain rfl := hcomp w hlast
    refine ⟨_, by simp only [Service.next, hcl]; rfl,
      h.set hinv hi hqp (fun _ _ => by rw [hreq]) ?_⟩
    simp only [Stands, length_append, length_singleton]
    omega

theorem Refines.take {reject : Bool} {j : Fin cfg.window} {req resp : RpcOp} {r k : ℕ}
    (hat : s.req (cfg.reqAt m i j) = req) (hj : req.crc = crcCheckMagic)
    (hmem : t.mem = (handle reject s.mem req resp).mem)
    (hreq : ∀ a ≠ cfg.reqAt m i j, t.req a = s.req a) (hqp : t.qp = update s.qp (m, i)
      ((s.qp (m, i)).serve r req (outcome reject s.mem req resp k))) :
    ∃ cl', Service.next ⟨s.mem, cl⟩ (.take (m, i) reject) = some ⟨t.mem, cl'⟩ ∧
      Refines cfg t cl' := by
  subst hat
  obtain ⟨c, hcl, hc⟩ := h.client m hm i hi
  have hacc := (hinv.view m i hm hi).accounted
  have hold := (h.inv.view m i hm hi).accounted
  simp only [State.view, hqp, Qp.serve, update_self, length_append,
    length_singleton] at hacc hold
  cases c with
  | idle | done =>
    simp only [Stands] at hc
    omega
  | posted wr =>
    obtain ⟨-, hcas, -, hring⟩ := hc
    obtain ⟨hop, hcmp, hswap, haddr⟩ : Carries wr (s.req (cfg.reqAt m i j)) := hring j hj
    rw [hcas] at hop
    have hset := h.set (c := .done (if reject then wr.swap else s.mem wr.remoteAddr)) hinv hi hqp
      (fun a ha => hreq a (ha j)) ⟨Nat.lt_of_le_of_lt hold.1 (by simp [Qp.serve]), ?_⟩
    · refine ⟨_, ?_, hset⟩
      cases reject with
      | true => simp [Service.next, hcl, hmem, handle_cas_reject _ _ hop, Qp.serve]
      | false =>
        simp [Service.next, hcl, hmem, handle_cas _ _ hop, Qp.serve, AtomicWr.perform, hcas, hcmp,
          hswap, haddr]
    · cases reject with
      | true => simp [Qp.serve, outcome, writesResp_cas _ hop, handle_cas_reject _ _ hop, hswap]
      | false => simp [Qp.serve, outcome, writesResp_cas _ hop, handle_cas _ _ hop, haddr]

theorem Refines.arrive {f : InFlight} {wire : List InFlight} (hw : (s.qp (m, i)).wire = f :: wire)
    (hreq : t.req = update s.req f.addr f.op)
    (hqp : t.qp = update s.qp (m, i) { s.qp (m, i) with wire }) : Refines cfg t cl := by
  obtain ⟨c, hcl, hc⟩ := h.client m hm i hi
  obtain ⟨j, ha, -, -⟩ := (h.inv.view m i hm hi).wire_target hw
  have hset := h.set (c := c) hinv hi hqp (fun a hne => by rw [hreq, update_of_ne (ha ▸ hne j)]) ?_
  · rwa [← hcl, update_eq_self] at hset
  · cases c with
    | posted wr =>
      obtain ⟨hlt, hcas, hwire, hring⟩ := hc
      rw [hw] at hwire
      refine ⟨hlt, hcas, fun g hg => hwire g (mem_cons_of_mem f hg), fun k hk => ?_⟩
      have := hring k
      simp only [State.view, hreq, update_apply] at hk this ⊢
      split_ifs at hk ⊢
      · exact hwire f mem_cons_self
      · exact this hk
    | _ => exact hc

end

section
variable {cfg : Config} {s t : State} {p : Service} {a : Action}

theorem Refines.step {s₀ : State} (ha : PostsCas s₀ a) (hn : next cfg s a = some t)
    (h : p.mem = s.mem ∧ Refines cfg s p.client) :
    a.visible = none ∧ p.mem = t.mem ∧ Refines cfg t p.client ∨
      ∃ b q, p.next b = some q ∧ b.visible = a.visible ∧
        q.mem = t.mem ∧ Refines cfg t q.client := by
  obtain ⟨mem, cl⟩ := p
  obtain ⟨rfl, h⟩ := h
  have hinv := h.inv.step hn
  cases a with
  | qp m i a =>
    obtain ⟨⟨hm, hi⟩, hn⟩ := Option.ite_none_right_eq_some.mp hn
    cases qpStep_cases hn with
    | post hw =>
      obtain ⟨cl', hq, hr⟩ := h.post hinv hm hi ha hw rfl rfl
      exact .inr ⟨_, _, hq, rfl, rfl, hr⟩
    | arrive hw => exact .inl ⟨rfl, rfl, h.arrive hinv hm hi hw rfl rfl⟩
    | deliver =>
      obtain ⟨c, hcl, hc⟩ := h.client m hm i hi
      have hset := h.set hinv hi rfl (fun _ _ => rfl) hc
      rw [← hcl, update_eq_self] at hset
      exact .inl ⟨rfl, rfl, hset⟩
    | poll =>
      obtain ⟨cl', hq, hr⟩ := h.poll hinv hm hi rfl rfl
      exact .inr ⟨_, _, hq, rfl, rfl, hr⟩
  | scan u reject =>
    obtain ⟨hu, ⟨⟩⟩ := Option.ite_none_right_eq_some.mp hn
    obtain ⟨hk, hi, hj⟩ := (h.inv.pos u hu).slot hu
    unfold State.visit at hinv ⊢
    split_ifs at hinv ⊢ with hc
    · obtain ⟨cl', hq, hr⟩ := h.take hinv hk hi (j := ⟨_, hj⟩) rfl hc rfl
        (fun a ha => update_of_ne ha ..) rfl
      exact .inr ⟨_, _, hq, rfl, rfl, hr⟩
    · exact .inl ⟨rfl, rfl, hinv, h.client⟩
  | write addr v =>
    cases hn
    exact .inr ⟨.write addr v, _, rfl, rfl, rfl, hinv, h.client⟩

theorem Refines.start (h : (system cfg).start s) : Refines cfg s fun _ => ⟨.idle, []⟩ :=
  ⟨.start h, fun m _ i _ => ⟨.idle, by rw [h.1]; rfl, by rw [h.1]; rfl⟩⟩

/-- A run that offloads only CAS has the posts, returns and writes of a run of the service, which
leaves the same memory and returns the same values. A scan step is taken as atomic here: the
interleavings of the loads and the compare-exchange in `CasInterleaving` are excluded. -/
theorem linearizable (hs : (system cfg).start s) {as : List Action} (ha : ∀ a ∈ as, PostsCas s a)
    (he : (system cfg).exec s as = some t) :
    ∃ bs q, service.exec ⟨s.mem, fun _ => ⟨.idle, []⟩⟩ bs = some q ∧
      bs.filterMap Event.visible = as.filterMap Action.visible ∧ q.mem = t.mem ∧
      ∀ m < cfg.region.machineNum, ∀ i < maxRecorderNum,
        (q.client (m, i)).returned = (t.qp (m, i)).returned := by
  obtain ⟨bs, q, hbs, hvis, hmem, hr⟩ := System.exec_simulates (T := service)
    (R := fun s p => p.mem = s.mem ∧ Refines cfg s p.client) (f := Action.visible)
    (g := Event.visible) (fun _ _ _ _ => Refines.step) ha he
    (p := ⟨s.mem, fun _ => ⟨.idle, []⟩⟩) ⟨rfl, .start hs⟩
  refine ⟨bs, q, hbs, hvis, hmem, fun m hm i hi => ?_⟩
  obtain ⟨c, hc, -⟩ := hr.client m hm i hi
  rw [hc]

end

theorem linearizable_oneSlot : ∃ bs q, service.exec ⟨fun _ => 0, fun _ => ⟨.idle, []⟩⟩ bs = some q ∧
      bs.filterMap Event.visible = [.post (0, 0) ⟨.cmpAndSwp, 0, 0, 7⟩, .ret (0, 0)] ∧
      q.mem 0 = 7 ∧ (q.client (0, 0)).returned = [0] := by
  obtain ⟨t, ht, hm, hr⟩ : ∃ t, (system oneSlot).exec idleState
    (roundTrip ⟨.cmpAndSwp, 0, 0, 7⟩) = some t ∧ t.mem 0 = 7 ∧ (t.qp (0, 0)).returned = [0] :=
    ⟨_, rfl, rfl, rfl⟩
  obtain ⟨bs, q, hbs, hvis, hmem, hret⟩ := linearizable idleState_start (by decide) ht
  exact ⟨bs, q, hbs, hvis, hmem ▸ hm, (hret 0 (by decide) 0 (by decide)).trans hr⟩

end Fusa.Rpc.FusaRpc

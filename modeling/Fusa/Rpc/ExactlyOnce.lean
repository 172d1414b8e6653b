import Fusa.Rpc.FusaRpc

/-! Every offloaded request in `FUSA_RPC` mode is processed exactly once and answered. -/
namespace Fusa.Rpc.FusaRpc
open Driver Server Transition Function List Option

variable {cfg : Config} {s t : State} {a : Action} {as : List Action}

theorem served_le_of_next (hn : next cfg s a = some t) (x : ℕ × ℕ) :
    (s.qp x).served.length ≤ (t.qp x).served.length := by
  have hset : ∀ m i q, (s.qp (m, i)).served.length ≤ q.served.length →
      (s.qp x).served.length ≤ ((s.setQp m i q).qp x).served.length := by
    intro m i q hq
    by_cases hx : x = (m, i)
    · subst hx
      simpa [State.setQp] using hq
    · simp [State.setQp, hx]
  cases a with
  | qp m i a =>
    obtain ⟨-, hn⟩ := ite_none_right_eq_some.mp hn
    cases qpStep_cases hn <;> exact hset m i _ le_rfl
  | scan u reject =>
    obtain ⟨-, ⟨⟩⟩ := ite_none_right_eq_some.mp hn
    simp only [State.visit]
    split
    · exact hset _ _ _ (by simp [Qp.serve])
    · exact le_rfl
  | write addr v => exact some.inj hn ▸ le_rfl

theorem served_le_of_exec (he : (system cfg).exec s as = some t) (x : ℕ × ℕ) :
    (s.qp x).served.length ≤ (t.qp x).served.length := by
  induction as generalizing s with
  | nil => cases he; exact le_rfl
  | cons a as ih =>
    rw [System.exec_cons] at he
    obtain ⟨u, hu, ht⟩ := bind_eq_some_iff.mp he
    exact (served_le_of_next hu x).trans (ih ht)

def isScan (t : ℕ) : Action → Bool
  | .scan u _ => u == t
  | _ => false

/-- A request stays in its slot and is processed when the scan stands before it. -/
theorem Inv.kept_or_served (h : Inv cfg s) {m i : ℕ} (hi : i < maxRecorderNum) {j : Fin cfg.window}
    (hc : (s.req (cfg.reqAt m i j)).crc = crcCheckMagic) (hn : next cfg s a = some t) :
    (s.qp (m, i)).served.length < (t.qp (m, i)).served.length ∨
      (t.req (cfg.reqAt m i j)).crc = crcCheckMagic ∧
        ∀ u reject, a = .scan u reject → s.pos u ≠ ⟨m, i, j⟩ := by
  cases a with
  | qp m' i' a =>
    refine .inr ⟨?_, fun _ _ he => by cases he⟩
    obtain ⟨hg, hn⟩ := ite_none_right_eq_some.mp hn
    cases qpStep_cases hn with
    | @arrive f wire hw =>
      obtain ⟨j', ha, hfree, -⟩ := (h.view m' i' hg.1 hg.2).wire_target hw
      have hne : cfg.reqAt m i j ≠ f.addr := fun he => hfree (by
        simpa [State.view, ← ha, ← he] using hc)
      simpa [update_of_ne hne] using hc
    | _ => exact hc
  | scan u reject =>
    obtain ⟨hu, ⟨⟩⟩ := ite_none_right_eq_some.mp hn
    obtain ⟨-, hi', hj'⟩ := (h.pos u hu).slot hu
    by_cases hp : s.pos u = ⟨m, i, j⟩
    · left
      have hcrc : (s.req (cfg.region.scanAddr m i j)).crc = crcCheckMagic := hc
      simp [State.visit, hp, hcrc, State.handleAt, State.setQp, Qp.serve]
    · refine .inr ⟨?_, fun v r he => by cases he; exact hp⟩
      simp only [State.visit]
      split
      · have hne : cfg.reqAt m i j ≠
            cfg.region.scanAddr (s.pos u).k (s.pos u).i (s.pos u).j := fun he => by
          have he' : cfg.reqAt m i j = cfg.reqAt _ _ ⟨(s.pos u).j, hj'⟩ := he
          obtain ⟨hm, hi, hj⟩ := Config.reqAt_inj hi hi' he'
          exact hp (by rw [hm, hi, hj])
        simpa [State.handleAt, update_of_ne hne] using hc
      · exact hc
  | write addr v => exact .inr ⟨some.inj hn ▸ hc, fun _ _ he => by cases he⟩

theorem pos_of_next (hn : next cfg s a = some t) (u : ℕ) :
    t.pos u = if isScan u a then nextPos cfg u (s.pos u) else s.pos u := by
  cases a with
  | qp m i a =>
    obtain ⟨-, hn⟩ := ite_none_right_eq_some.mp hn
    cases qpStep_cases hn <;> rfl
  | scan v reject =>
    obtain ⟨-, ⟨⟩⟩ := ite_none_right_eq_some.mp hn
    by_cases huv : u = v
    · subst huv
      simp [isScan]
    · simp [isScan, huv, Ne.symm huv]
  | write addr v => exact some.inj hn ▸ rfl

section
variable (cfg) (u m i : ℕ) (j : Fin cfg.window)

def turnsTo (s : State) : ℕ :=
  Cyclic.dist (ScanPos.passLength cfg.region.machineNum cfg.region.rpcThreadNum cfg.window)
    ((s.pos u).turn cfg.region.rpcThreadNum cfg.window u)
    (ScanPos.turn cfg.region.rpcThreadNum cfg.window u ⟨m, i, j⟩)

end

theorem turnsTo_step {u m i : ℕ} {j : Fin cfg.window} (hpos : ValidPos cfg u (s.pos u))
    (htarget : ValidPos cfg u ⟨m, i, j⟩) (hne : s.pos u ≠ ⟨m, i, j⟩)
    (ht : t.pos u = nextPos cfg u (s.pos u)) :
    turnsTo cfg u m i j t + 1 = turnsTo cfg u m i j s := by
  have h0 : turnsTo cfg u m i j s ≠ 0 := fun h0 => hne (ScanPos.turn_inj hpos htarget (by
    rw [← (Cyclic.dist_eq_zero (ScanPos.turn_lt hpos)).mp h0]
    exact Nat.mod_eq_of_lt (ScanPos.turn_lt htarget)))
  have hnext : turnsTo cfg u m i j t = turnsTo cfg u m i j s - 1 := by
    unfold turnsTo at h0 ⊢
    rw [ht, nextPos, ScanPos.turn_next hpos]
    exact Cyclic.dist_succ (ScanPos.turn_lt hpos) h0
  omega

/-- Once thread `u` has taken enough turns the request is processed, whatever happens between. -/
theorem Inv.served_of_turns {u m i : ℕ} {j : Fin cfg.window} (hu : u < cfg.region.rpcThreadNum)
    (hi : i < maxRecorderNum) (htarget : ValidPos cfg u ⟨m, i, j⟩) (h : Inv cfg s)
    (hc : (s.req (cfg.reqAt m i j)).crc = crcCheckMagic) (he : (system cfg).exec s as = some t)
    (hturns : turnsTo cfg u m i j s < as.countP (isScan u)) :
    (s.qp (m, i)).served.length < (t.qp (m, i)).served.length := by
  induction as generalizing s with
  | nil => simp at hturns
  | cons a as ih =>
    rw [System.exec_cons] at he
    obtain ⟨v, hv, ht⟩ := bind_eq_some_iff.mp he
    obtain hs | ⟨hkept, hpos⟩ := h.kept_or_served hi hc hv
    · exact hs.trans_le (served_le_of_exec ht _)
    · refine (served_le_of_next hv _).trans_lt (ih (h.step hv) hkept ht ?_)
      have hp := pos_of_next hv u
      rw [countP_cons] at hturns
      cases hscan : isScan u a with
      | true =>
        rw [hscan, if_pos rfl] at hp hturns
        have hne : s.pos u ≠ ⟨m, i, j⟩ := by
          cases a with
          | scan w reject =>
            obtain rfl : w = u := by simpa [isScan] using hscan
            exact hpos w reject rfl
          | qp => cases hscan
          | write => cases hscan
        have := turnsTo_step (h.pos u hu) htarget hne hp
        omega
      | false =>
        rw [hscan] at hp hturns
        have hsame : turnsTo cfg u m i j v = turnsTo cfg u m i j s := by
          simp only [turnsTo, hp]
          rfl
        simp only [hsame]
        simpa using hturns

def PostsCas (_ : State) : Action → Prop
  | .qp _ _ (.post _ wr) => wr.opcode = .cmpAndSwp
  | _ => True

instance (s : State) (a : Action) : Decidable (PostsCas s a) := by
  unfold PostsCas
  split <;> infer_instance

/-- What follows for the requests in flight, in the slots and processed. -/
structure AllCas (s : State) : Prop where
  wire : ∀ x, ∀ f ∈ (s.qp x).wire, f.op.opcode = casOpCode
  slots : ∀ a, (s.req a).crc = crcCheckMagic → (s.req a).opcode = casOpCode
  served : ∀ x, ∀ d ∈ (s.qp x).served, d.comp.isSome

theorem AllCas.of_qp (h : AllCas s) (m i : ℕ) (q : Qp) (hqp : t.qp = update s.qp (m, i) q)
    (hw : ∀ f ∈ q.wire, f.op.opcode = casOpCode) (hs : ∀ d ∈ q.served, d.comp.isSome)
    (hslots : ∀ a, (t.req a).crc = crcCheckMagic → (t.req a).opcode = casOpCode) : AllCas t := by
  refine ⟨?_, hslots, ?_⟩
  · rw [hqp]
    exact (forall_update_iff s.qp fun _ q => ∀ f ∈ q.wire, f.op.opcode = casOpCode).mpr
      ⟨hw, fun x _ => h.wire x⟩
  · rw [hqp]
    exact (forall_update_iff s.qp fun _ q => ∀ d ∈ q.served, d.comp.isSome).mpr
      ⟨hs, fun x _ => h.served x⟩

theorem AllCas.slots_update (h : AllCas s) (a : ℕ) (op : RpcOp)
    (hop : op.crc = crcCheckMagic → op.opcode = casOpCode) (b : ℕ) :
    (update s.req a op b).crc = crcCheckMagic → (update s.req a op b).opcode = casOpCode :=
  (forall_update_iff s.req fun _ op => op.crc = crcCheckMagic →
    op.opcode = casOpCode).mpr ⟨hop, fun x _ => h.slots x⟩ b

theorem AllCas.step (h : AllCas s) (hp : PostsCas s a) (hn : next cfg s a = some t) : AllCas t := by
  cases a with
  | qp m i a =>
    have hw := h.wire (m, i)
    have hs := h.served (m, i)
    obtain ⟨-, hn⟩ := ite_none_right_eq_some.mp hn
    cases qpStep_cases hn with
    | @post sendBuf wr =>
      refine h.of_qp m i _ rfl (fun f hf => ?_) hs h.slots
      simp only [Qp.post, mem_append, mem_singleton] at hf
      obtain hf | rfl := hf
      · exact hw f hf
      · have hcas : wr.opcode = .cmpAndSwp := hp
        simp [encode, hcas, AtomicOpcode.code]
    | @arrive f wire hwire =>
      rw [hwire] at hw
      exact h.of_qp m i _ rfl (fun g hg => hw g (mem_cons_of_mem _ hg)) hs
        (h.slots_update _ _ fun _ => hw f (mem_cons_self ..))
    | deliver | poll => exact h.of_qp m i _ rfl hw hs h.slots
  | scan u reject =>
    obtain ⟨-, ⟨⟩⟩ := ite_none_right_eq_some.mp hn
    suffices hv : AllCas (s.visit cfg (s.pos u) reject) from ⟨hv.wire, hv.slots, hv.served⟩
    unfold State.visit
    split
    · rename_i hc
      refine h.of_qp _ _ _ rfl (h.wire _) (fun d hd => ?_) (h.slots_update _ _ fun hm => ?_)
      · simp only [Qp.serve, mem_append, mem_singleton] at hd
        obtain hd | rfl := hd
        · exact h.served _ d hd
        · simp [outcome, writesResp_cas reject (h.slots _ hc)]
      · simp [handle_crc, crcCheckMagic] at hm
    · exact h
  | write addr v => exact some.inj hn ▸ ⟨h.wire, h.slots, h.served⟩

theorem AllCas.start (h : (system cfg).start s) : AllCas s := by
  obtain ⟨hqp, hreq, -, -⟩ := h
  exact ⟨by simp [hqp, Qp.fresh], by simp [hreq, crcCheckMagic], by simp [hqp, Qp.fresh]⟩

section
variable (cfg)

/-- The rpc thread that scans recorder index `i`. -/
def Config.threadOf (i : ℕ) : ℕ := i / (maxRecorderNum / cfg.region.rpcThreadNum)

/-- The service that queue pair `i` of machine `m` gets. -/
structure ExactlyOnce (s : State) (m i : ℕ) : Prop where
  numbers : (s.qp (m, i)).served.map Served.number = List.range (s.qp (m, i)).served.length
  accounted : (s.qp (m, i)).returned.length ≤ (s.qp (m, i)).served.length ∧
    (s.qp (m, i)).served.length ≤ (s.qp (m, i)).posted ∧
    (s.qp (m, i)).posted ≤ (s.qp (m, i)).returned.length + 1
  notOverwritten : ∀ f ∈ (s.qp (m, i)).wire, (s.req f.addr).crc ≠ crcCheckMagic
  value : ∀ (n : ℕ) (x : UInt64), (s.qp (m, i)).returned[n]? = some x →
    ∃ d : Served, (s.qp (m, i)).served[n]? = some d ∧ d.comp = some x
  progress : (s.qp (m, i)).wire = [] → (s.qp (m, i)).served.length < (s.qp (m, i)).posted →
    ∀ as u, (system cfg).exec s as = some u →
      ScanPos.passLength cfg.region.machineNum cfg.region.rpcThreadNum cfg.window ≤
        as.countP (isScan (cfg.threadOf i)) →
      (s.qp (m, i)).served.length < (u.qp (m, i)).served.length
  answered : (s.qp (m, i)).waiting ≠ none → (s.qp (m, i)).served.length = (s.qp (m, i)).posted →
    (s.qp (m, i)).replies ≠ [] ∨ ∃ u, next cfg s (.qp m i .poll) = some u

end

theorem Inv.progress (h : Inv cfg s) {m i : ℕ} (hm : m < cfg.region.machineNum)
    (hi : i < maxRecorderNum) (hw : (s.qp (m, i)).wire = [])
    (hs : (s.qp (m, i)).served.length < (s.qp (m, i)).posted) (he : (system cfg).exec s as = some t)
    (hpass : ScanPos.passLength cfg.region.machineNum cfg.region.rpcThreadNum cfg.window ≤ as.countP
      (isScan (cfg.threadOf i))) : (s.qp (m, i)).served.length < (t.qp (m, i)).served.length := by
  obtain ⟨j, hj⟩ := (h.view m i hm hi).pending hw hs
  have hjw : (j : ℕ) < cfg.region.rmeta.maxRpcNum := by
    rw [Region.maxRpcNum_eq_window]
    exact j.isLt
  obtain ⟨hu, hscan⟩ := Region.driverSlot_scannedAs cfg.threads ⟨hm, hi, hjw⟩
  have htarget : ValidPos cfg (cfg.threadOf i) ⟨m, i, j⟩ := hscan
  have hpos := ScanPos.turn_lt (h.pos _ hu)
  exact h.served_of_turns hu hi htarget hj he
    ((Cyclic.dist_lt (Nat.zero_lt_of_lt hpos)).trans_le hpass)

/-- Runs that offload only CAS process each request once and return the value computed for it. -/
theorem exactlyOnce_of_postsCas (cfg : Config) {s : State}
    (h : (system cfg).RunWith PostsCas s) {m i : ℕ} (hm : m < cfg.region.machineNum)
    (hi : i < maxRecorderNum) : ExactlyOnce cfg s m i := by
  have hinv : Inv cfg s := h.invariant (fun _ => Inv.start) fun _ _ _ hi _ hn => hi.step hn
  have hcas : AllCas s := h.invariant (fun _ => AllCas.start) fun _ _ _ ha hp hn => ha.step hp hn
  have hv := hinv.view m i hm hi
  refine ⟨?_, hv.accounted, fun f hf => ?_, fun n x hx => ?_, fun hw hs as u he hp =>
    hinv.progress hm hi hw hs he hp, fun hw hs => ?_⟩
  · rw [range_eq_range']
    exact hv.numbers.map_eq_range
  · obtain ⟨j, ha, hfree⟩ := hv.wire_free hf
    rwa [ha]
  · obtain ⟨d, hd, hcomp⟩ := hv.values.get hx
    rw [Nat.zero_add] at hd
    obtain ⟨w, hw⟩ := isSome_iff_exists.mp (hcas.served (m, i) d (mem_of_getElem? hd))
    exact ⟨d, hd, hcomp w hw ▸ hw⟩
  · obtain ⟨a, ha⟩ := ne_none_iff_exists'.mp hw
    refine (hv.answered ha hs).imp_right ?_
    rintro ⟨l, d, rfl, hd, hcrc⟩
    obtain ⟨w, hw⟩ := isSome_iff_exists.mp (hcas.served (m, i) d hd)
    have hc : (s.recv m (cfg.recvAt m i l)).crc = crcCheckMagic := hcrc w hw
    exact ⟨_, by simp only [next, hm, hi, and_self, if_true, State.qpStep, ha, hc]; rfl⟩

def oneSlot : Config where
  region := ⟨0, 4096, 1, 32⟩
  lmeta m := ⟨m, 0, 2048, 2048⟩
  qpn _ := 7
  chunk := by decide
  threads := by decide
  window_pos := by decide
  recv_pos m := show 0 < 2048 / maxRecorderNum / rpcOpSize by decide
  machineId _ := rfl

def idleState : State where
  mem _ := 0
  req _ := .zero
  owner _ := 0
  resp _ := .zero
  recv _ _ := .zero
  qp _ := .fresh
  pos t := ⟨0, t, 0⟩

theorem idleState_start : (system oneSlot).start idleState := by
  refine ⟨fun _ => rfl, fun _ => rfl, fun _ _ => rfl, fun t ht => ⟨show 0 < 1 by decide, ?_,
    show 0 < windowSize 4096 1 by decide⟩⟩
  simp only [idleState, ScansIdx, oneSlot, maxRecorderNum]
  omega

def roundTrip (wr : AtomicWr) : List Action :=
  [.qp 0 0 (.post .zero wr), .qp 0 0 .arrive, .scan 0 false, .qp 0 0 .deliver, .qp 0 0 .poll]

/-- Two queue pairs at once, and a second request in the slot of the first. -/
def threeCas : List Action :=
  [.qp 0 0 (.post .zero ⟨.cmpAndSwp, 0, 0, 7⟩), .qp 0 1 (.post .zero ⟨.cmpAndSwp, 0, 7, 9⟩),
    .qp 0 1 .arrive, .scan 0 false, .qp 0 0 .arrive, .scan 0 false, .scan 1 false,
    .qp 0 1 .deliver, .qp 0 0 .deliver, .qp 0 0 .poll, .qp 0 1 .poll] ++
    roundTrip ⟨.cmpAndSwp, 0, 9, 5⟩

theorem exactlyOnce_threeCas : ∃ s, (system oneSlot).RunWith PostsCas s ∧
    (s.qp (0, 0)).returned = [0, 9] ∧ (s.qp (0, 1)).returned = [7] ∧ ExactlyOnce oneSlot s 0 0 := by
  obtain ⟨s, -, hrun, h0, h1⟩ := (system oneSlot).exists_runWith PostsCas
    (fun s => (s.qp (0, 0)).returned = [0, 9] ∧ (s.qp (0, 1)).returned = [7]) idleState_start
    threeCas (by decide +kernel) (by decide +kernel)
  exact ⟨s, hrun, h0, h1, exactlyOnce_of_postsCas oneSlot hrun (by decide) (by decide)⟩

/-- An FAA after a CAS in the same slot returns the value left over from the CAS. -/
theorem not_exactlyOnce_faa : ∃ s, (system oneSlot).Reachable s ∧ ¬ ExactlyOnce oneSlot s 0 0 := by
  refine ⟨_, (System.Reachable.start idleState_start).exec
    (roundTrip ⟨.cmpAndSwp, 0, 0, 7⟩ ++ roundTrip ⟨.fetchAndAdd, 0, 1, 0⟩) rfl, ?_⟩
  intro h
  obtain ⟨d, hd, hc⟩ := h.value 1 0 rfl
  cases hd
  cases hc

end Fusa.Rpc.FusaRpc

import Fusa.Lib.Lists
import Fusa.Lib.Transition
import Fusa.Server.Request

/-! One queue pair in `HERD_RPC` mode: posts, request ring, scan and replies. -/
namespace Fusa.Rpc.Herd
open Driver Server Transition Function List Option Nat

structure Config where
  window : ℕ
  threadQpBatch : ℕ
  machineId : ℕ
  qpn : ℕ
  window_pos : 0 < window
  batch_pos : 0 < threadQpBatch

/-- A reply that sends the `comp` of a response slot, and the request it answers. -/
structure Reply where
  slot : ℕ
  owner : ℕ

/-- From `arrived` on history: `result k` is what the response slot held after request `k`. -/
structure State where
  mem : ℕ → UInt64
  remoteOff : ℕ
  posted : ℕ
  wire : List (ℕ × RpcOp)
  req : ℕ → RpcOp
  resp : ℕ → RpcOp
  pos : ℕ
  batch : List Reply
  sendQueue : List Reply
  received : List (ℕ × UInt64)
  arrived : ℕ
  owner : ℕ → ℕ
  done : ℕ
  result : ℕ → Option UInt64

inductive Action
  | post (sendBuf : RpcOp) (respAddr : ℕ) (wr : AtomicWr)
  | arrive
  | scan (reject : Bool)
  | deliver
  | write (addr : ℕ) (v : UInt64)

variable (cfg : Config)

/-- A request at `pos` is handled, its reply joins the batch, and a full batch is posted. -/
def State.handleAt (s : State) (reject : Bool) : State :=
  let j := s.pos
  let h := handle reject s.mem (s.req j) (s.resp j)
  let batch := s.batch ++ [⟨j, s.owner j⟩]
  let full := s.batch.length &&& (cfg.threadQpBatch - 1) = cfg.threadQpBatch - 1
  { s with
    mem := h.mem
    req := update s.req j h.req
    resp := update s.resp j h.resp
    pos := (j + 1) % cfg.window
    batch := if full then [] else batch
    sendQueue := if full then s.sendQueue ++ batch else s.sendQueue
    done := s.done + 1
    result := update s.result (s.owner j) (some h.resp.comp) }

/-- At most `window` requests are outstanding; a reply's value is read at its delivery. -/
def next (s : State) : Action → Option State
  | .post sendBuf respAddr wr =>
    if s.posted < s.received.length + cfg.window then
      some { s with
        remoteOff := (s.remoteOff + 1) % cfg.window
        posted := s.posted + 1
        wire := s.wire ++ [(s.remoteOff, encode sendBuf cfg.machineId cfg.qpn respAddr wr)] }
    else none
  | .arrive =>
    match s.wire with
    | [] => none
    | (j, op) :: wire =>
      some { s with
        wire
        req := update s.req j op
        arrived := s.arrived + 1
        owner := update s.owner j s.arrived }
  | .scan reject =>
    if (s.req s.pos).crc = crcCheckMagic then some (s.handleAt cfg reject)
    else some { s with pos := (s.pos + 1) % cfg.window }
  | .deliver =>
    match s.sendQueue with
    | [] => none
    | r :: sendQueue =>
      some { s with sendQueue, received := s.received ++ [(r.owner, (s.resp r.slot).comp)] }
  | .write addr v => some { s with mem := update s.mem addr v }

/-- The scan may stand anywhere when the queue pair is first used. -/
def system : System State Action where
  start s := s.remoteOff = 0 ∧ s.posted = 0 ∧ s.wire = [] ∧ (∀ j, (s.req j).crc = 0) ∧
    s.pos < cfg.window ∧ s.batch = [] ∧ s.sendQueue = [] ∧ s.received = [] ∧ s.arrived = 0 ∧
    s.done = 0
  next := next cfg

/-- The `k`-th receive is filled with the result of the `k`-th request. -/
def Matched (s : State) : Prop :=
  ∀ k o v, s.received[k]? = some (o, v) → o = k ∧ s.result k = some v

/-- A request that arrives behind an unprocessed one lies farther ahead of the scan. -/
def AheadOfScan (s : State) : Action → Prop
  | .arrive => s.done < s.arrived →
      Cyclic.dist cfg.window s.pos s.done < Cyclic.dist cfg.window s.pos s.arrived
  | _ => True

instance (s : State) (a : Action) : Decidable (AheadOfScan cfg s a) := by
  cases a <;> unfold AheadOfScan <;> infer_instance

structure Inv (s : State) : Prop where
  remoteOff : s.remoteOff = s.posted % cfg.window
  received_le : s.received.length ≤ s.done
  done_le : s.done ≤ s.arrived
  posted_le : s.posted ≤ s.received.length + cfg.window
  pos_lt : s.pos < cfg.window
  near : Cyclic.dist cfg.window s.pos s.done + (s.arrived - s.done) ≤ cfg.window
  wire_length : s.arrived + s.wire.length = s.posted
  wire : Numbered.From (fun k x => x.1 = k % cfg.window ∧ x.2.crc = crcCheckMagic) s.arrived s.wire
  slots : ∀ j, (s.req j).crc = crcCheckMagic ↔
    ∃ k, s.done ≤ k ∧ k < s.arrived ∧ k % cfg.window = j
  owners : ∀ k, s.done ≤ k → k < s.arrived → s.owner (k % cfg.window) = k
  replies_length : s.received.length + (s.sendQueue ++ s.batch).length = s.done
  replies : Numbered.From (fun k r => r = ⟨k % cfg.window, k⟩) s.received.length
    (s.sendQueue ++ s.batch)
  results : ∀ k, s.received.length ≤ k → k < s.done →
    s.result k = some (s.resp (k % cfg.window)).comp
  matched : Numbered.From (fun k x => x.1 = k ∧ s.result k = some x.2) 0 s.received

variable {cfg} {s t : State}

theorem Inv.start (h : (system cfg).start s) : Inv cfg s := by
  obtain ⟨h1, h2, h3, h4, h5, h6, h7, h8, h9, h10⟩ := h
  have hd : Cyclic.dist cfg.window s.pos 0 < cfg.window := Cyclic.dist_lt cfg.window_pos
  constructor <;>
    simp [h1, h2, h3, h4, h5, h6, h7, h8, h9, h10, hd.le, Numbered.From, crcCheckMagic]

section
variable (h : Inv cfg s)
include h

theorem Inv.post (hg : s.posted < s.received.length + cfg.window) (op : RpcOp)
    (hop : op.crc = crcCheckMagic) :
    Inv cfg { s with
      remoteOff := (s.remoteOff + 1) % cfg.window
      posted := s.posted + 1
      wire := s.wire ++ [(s.remoteOff, op)] } :=
  { h with
    remoteOff := by simp [h.remoteOff]
    posted_le := hg
    wire_length := by simp [← h.wire_length, add_assoc]
    wire := h.wire.concat ⟨by rw [h.wire_length]; exact h.remoteOff, hop⟩ }

theorem Inv.arrived_lt {x : ℕ × RpcOp} {wire : List (ℕ × RpcOp)} (hw : s.wire = x :: wire) :
    s.arrived < s.done + cfg.window := by
  have hl := h.wire_length
  rw [hw, length_cons] at hl
  have := h.posted_le
  have := h.received_le
  omega

theorem Inv.near_arrive (hc : AheadOfScan cfg s .arrive) :
    Cyclic.dist cfg.window s.pos s.done + (s.arrived + 1 - s.done) ≤ cfg.window := by
  have hlt : Cyclic.dist cfg.window s.pos s.done < cfg.window := Cyclic.dist_lt cfg.window_pos
  have hle := h.done_le
  have hnear := h.near
  by_cases hd : s.done = s.arrived
  · omega
  · have hahead := hc (by omega)
    have hsum := Cyclic.dist_add h.pos_lt s.done (s.arrived - s.done)
    rw [Nat.add_sub_cancel' hle] at hsum
    by_contra hfull
    have hw : Cyclic.dist cfg.window s.pos s.done + (s.arrived - s.done) = cfg.window := by omega
    rw [hw, mod_self] at hsum
    omega

/-- The write of request `arrived` lands in a slot without an unprocessed request. -/
theorem Inv.arrive (hc : AheadOfScan cfg s .arrive) {j : ℕ} {op : RpcOp} {wire : List (ℕ × RpcOp)}
    (hw : s.wire = (j, op) :: wire) :
    Inv cfg { s with
      wire
      req := update s.req j op
      arrived := s.arrived + 1
      owner := update s.owner j s.arrived } := by
  have hwire := h.wire
  have hl := h.wire_length
  rw [hw] at hwire hl
  rw [length_cons] at hl
  obtain ⟨⟨rfl, hop : op.crc = crcCheckMagic⟩, hrest⟩ := hwire
  have hlt := h.arrived_lt hw
  refine { h with
    done_le := h.done_le.trans (le_succ _)
    near := h.near_arrive hc
    wire_length := by dsimp only; omega
    wire := hrest
    slots := fun j => ?_
    owners := fun k hk hk' => ?_ }
  · by_cases hj : j = s.arrived % cfg.window
    · subst hj
      simp only [update_self, hop, true_iff]
      exact ⟨s.arrived, h.done_le, lt_succ_self _, rfl⟩
    · simp only [update_of_ne hj, h.slots]
      constructor
      · rintro ⟨k, hk, hk', hm⟩
        exact ⟨k, hk, by omega, hm⟩
      · rintro ⟨k, hk, hk', hm⟩
        have hne : k ≠ s.arrived := fun he => hj (he ▸ hm.symm)
        exact ⟨k, hk, by omega, hm⟩
  · dsimp only at hk hk'
    by_cases he : k = s.arrived
    · subst he
      simp
    · have hne : k % cfg.window ≠ s.arrived % cfg.window := fun hm =>
        he (Cyclic.eq_of_mod_eq hk (by omega) h.done_le hlt hm)
      simp only [update_of_ne hne]
      exact h.owners k hk (by omega)

theorem Inv.scan_empty (hcrc : (s.req s.pos).crc ≠ crcCheckMagic) :
    Inv cfg { s with pos := (s.pos + 1) % cfg.window } := by
  refine { h with
    pos_lt := mod_lt _ cfg.window_pos
    near := ?_ }
  by_cases hd : s.done = s.arrived
  · have := Cyclic.dist_lt (p := (s.pos + 1) % cfg.window) (q := s.done) cfg.window_pos
    dsimp only
    omega
  · have hle := h.done_le
    have h0 : Cyclic.dist cfg.window s.pos s.done ≠ 0 := fun h0 =>
      hcrc ((h.slots _).mpr ⟨s.done, le_rfl, by omega, (Cyclic.dist_eq_zero h.pos_lt).mp h0⟩)
    have hnear := h.near
    dsimp only
    rw [Cyclic.dist_succ h.pos_lt h0]
    omega

theorem Inv.scan_oldest (hcrc : (s.req s.pos).crc = crcCheckMagic) :
    s.done < s.arrived ∧ s.done % cfg.window = s.pos := by
  obtain ⟨k, hk, hk', hm⟩ := (h.slots _).mp hcrc
  have hsum := Cyclic.dist_add h.pos_lt s.done (k - s.done)
  rw [Nat.add_sub_cancel' hk, (Cyclic.dist_eq_zero h.pos_lt).mpr hm] at hsum
  have hnear := h.near
  rw [mod_eq_of_lt (by omega)] at hsum
  exact ⟨by omega, (Cyclic.dist_eq_zero h.pos_lt).mp (by omega)⟩

end

theorem State.handleAt_replies (s : State) (reject : Bool) :
    (s.handleAt cfg reject).sendQueue ++ (s.handleAt cfg reject).batch =
      s.sendQueue ++ s.batch ++ [⟨s.pos, s.owner s.pos⟩] := by
  unfold State.handleAt
  dsimp only
  split <;> simp

theorem Inv.handleAt (h : Inv cfg s) (hcrc : (s.req s.pos).crc = crcCheckMagic)
    (reject : Bool) : Inv cfg (s.handleAt cfg reject) := by
  obtain ⟨hlt, hpos⟩ := h.scan_oldest hcrc
  have howner : s.owner s.pos = s.done := hpos ▸ h.owners s.done le_rfl hlt
  have hspan : s.arrived ≤ s.received.length + cfg.window := by
    have := h.posted_le
    have := h.wire_length
    omega
  have hrle := h.received_le
  have hslot : ∀ k, s.received.length ≤ k → k < s.arrived → k % cfg.window = s.pos → k = s.done :=
    fun k hk hk' hm => Cyclic.eq_of_mod_eq hk (by omega) hrle (by omega) (hm.trans hpos.symm)
  refine { h with
    received_le := by simp only [State.handleAt]; omega
    done_le := hlt
    pos_lt := mod_lt _ cfg.window_pos
    near := ?_
    slots := fun j => ?_
    owners := fun k hk hk' => h.owners k (by simp only [State.handleAt] at hk; omega) hk'
    replies_length := ?_
    replies := ?_
    results := fun k hk hk' => ?_
    matched := ?_ }
  · have hd : Cyclic.dist cfg.window s.pos s.done = 0 := (Cyclic.dist_eq_zero h.pos_lt).mpr hpos
    have hnear := h.near
    simp only [State.handleAt, Cyclic.dist_succ_succ h.pos_lt]
    omega
  · simp only [State.handleAt]
    by_cases hj : j = s.pos
    · subst hj
      simp only [update_self, handle_crc]
      refine iff_of_false (by decide) ?_
      rintro ⟨k, hk, hk', hm⟩
      have := hslot k (by omega) hk' hm
      omega
    · simp only [update_of_ne hj, h.slots]
      constructor
      · rintro ⟨k, hk, hk', hm⟩
        have hne : k ≠ s.done := fun he => hj (by rw [← hm, he, hpos])
        exact ⟨k, by omega, hk', hm⟩
      · rintro ⟨k, hk, hk', hm⟩
        exact ⟨k, by omega, hk', hm⟩
  · rw [State.handleAt_replies, length_append, length_singleton]
    have := h.replies_length
    simp only [State.handleAt]
    omega
  · rw [State.handleAt_replies]
    refine h.replies.concat ?_
    rw [h.replies_length, howner, hpos]
  · simp only [State.handleAt, howner] at hk hk' ⊢
    by_cases he : k = s.done
    · subst he
      simp [hpos]
    · have hne : k % cfg.window ≠ s.pos := fun hm => he (hslot k hk (by omega) hm)
      simp only [update_of_ne he, update_of_ne hne]
      exact h.results k hk (by omega)
  · simp only [State.handleAt, howner]
    refine h.matched.imp fun k x _ hk hx => ⟨hx.1, ?_⟩
    rw [update_of_ne (by omega)]
    exact hx.2

theorem Inv.deliver (h : Inv cfg s) {r : Reply} {sendQueue : List Reply}
    (hq : s.sendQueue = r :: sendQueue) :
    Inv cfg { s with sendQueue, received := s.received ++ [(r.owner, (s.resp r.slot).comp)] } := by
  have hrep := h.replies
  have hlen := h.replies_length
  rw [hq, cons_append] at hrep hlen
  rw [length_cons] at hlen
  obtain ⟨rfl, hrest⟩ := hrep
  have hres := h.results s.received.length le_rfl (by omega)
  refine { h with
    received_le := by simp only [length_append, length_singleton]; omega
    posted_le := by
      have := h.posted_le
      simp only [length_append, length_singleton]
      omega
    replies_length := by simp only [length_append, length_singleton] at hlen ⊢; omega
    replies := by simpa using hrest
    results := fun k hk => h.results k (by simp at hk; omega)
    matched := h.matched.concat (by simpa using hres) }

theorem Inv.step (h : Inv cfg s) {a : Action} (hc : AheadOfScan cfg s a)
    (hn : next cfg s a = some t) : Inv cfg t := by
  cases a with
  | post sendBuf respAddr wr =>
    obtain ⟨hg, hn⟩ := ite_none_right_eq_some.mp hn
    exact some.inj hn ▸ h.post hg _ rfl
  | arrive =>
    simp only [next] at hn
    split at hn
    · cases hn
    · rename_i hw
      exact some.inj hn ▸ h.arrive hc hw
  | scan reject =>
    simp only [next] at hn
    split at hn
    · rename_i hcrc
      exact some.inj hn ▸ h.handleAt hcrc reject
    · rename_i hcrc
      exact some.inj hn ▸ h.scan_empty hcrc
  | deliver =>
    simp only [next] at hn
    split at hn
    · cases hn
    · rename_i hq
      exact some.inj hn ▸ h.deliver hq
  | write addr v =>
    exact some.inj hn ▸ { h with }

/-- If requests arrive only ahead of the scan, the `k`-th receive gets the `k`-th result. -/
theorem matched_of_aheadOfScan (cfg : Config) {s : State}
    (h : (system cfg).RunWith (AheadOfScan cfg) s) : Matched s := by
  have hi : Inv cfg s := h.invariant (fun _ => Inv.start) fun _ _ _ hi hc hn => hi.step hc hn
  intro k o v hk
  simpa using hi.matched.get hk

def twoSlots : Config := ⟨2, 1, 0, 7, by decide, by decide⟩

def unused (pos : ℕ) : State where
  mem _ := 0
  remoteOff := 0
  posted := 0
  wire := []
  req _ := .zero
  resp _ := .zero
  pos := pos
  batch := []
  sendQueue := []
  received := []
  arrived := 0
  owner _ := 0
  done := 0
  result _ := none

theorem unused_start (pos : ℕ) (h : pos < 2) : (system twoSlots).start (unused pos) :=
  ⟨rfl, rfl, rfl, fun _ => rfl, h, rfl, rfl, rfl, rfl, rfl⟩

def postCas (addr : ℕ) (swap : UInt64) : Action := .post .zero 0 ⟨.cmpAndSwp, addr, 0, swap⟩

theorem matched_twoSlots :
    ∃ s, (system twoSlots).RunWith (AheadOfScan twoSlots) s ∧ s.received.length = 2 ∧
      Matched s := by
  obtain ⟨s, hs⟩ : ∃ s, (system twoSlots).exec (unused 0) [postCas 0 1, postCas 0 2, .arrive,
    .arrive, .scan false, .scan false, .deliver, .deliver] = some s ∧ s.received.length = 2 :=
    ⟨_, rfl, rfl⟩
  have hr : (system twoSlots).RunWith (AheadOfScan twoSlots) s :=
    (System.RunWith.start (unused_start 0 (by decide))).exec _ (by decide) hs.1
  exact ⟨s, hr, hs.2, matched_of_aheadOfScan twoSlots hr⟩

/-- With the scan at slot 1 the second of two requests is answered into the first's receive. -/
theorem not_matched_twoSlots : ∃ s, (system twoSlots).Reachable s ∧ ¬ Matched s := by
  refine ⟨_, (System.Reachable.start (unused_start 1 (by decide))).exec
    [postCas 0 1, postCas 0 2, .arrive, .arrive, .scan false, .deliver] rfl, ?_⟩
  intro h
  exact absurd (h 0 1 0 rfl).1 (by decide)

end Fusa.Rpc.Herd

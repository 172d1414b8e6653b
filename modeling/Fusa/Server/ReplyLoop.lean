import Fusa.Lib.Transition
import Fusa.Lib.Modular

/-! The reply loop of `rpc_func_impl` on one ring: signalling, polling and batched posting. -/
namespace Fusa.Server.ReplyLoop
open Transition Function List Nat

structure Config where
  unsignalBatch : ℕ
  threadQpBatch : ℕ

def Config.signalMask (cfg : Config) : UInt64 := UInt64.ofNat cfg.unsignalBatch - 1

/-- A work request of the array `wr`, with the number of the request that it answers. -/
structure Reply where
  req : ℕ
  wrId : UInt64
  signaled : Bool
deriving DecidableEq

/-- The loop waits for a request, is about to test whether to poll, or to post. -/
inductive Pc
  | scan
  | poll
  | post
deriving DecidableEq

/-- The variables of the ring. The last four fields are history. -/
structure State where
  sendTx : UInt64
  lastSignaled : UInt64
  threadBatchCnt : ℕ
  wr : ℕ → Reply
  pc : Pc
  handled : ℕ
  signaled : ℕ
  posted : List Reply
  polled : ℕ

namespace State
variable (cfg : Config) (s : State)

/-- `(send_tx & signal_mask) == 0`. -/
def atSignal : Bool := s.sendTx &&& cfg.signalMask = 0

def polls : Bool := s.atSignal cfg && s.lastSignaled != s.sendTx

def outstanding : ℕ := s.posted.countP (·.signaled) - s.polled

def stage : State :=
  { s with
    wr := Function.update s.wr s.threadBatchCnt ⟨s.handled, s.sendTx, s.atSignal cfg⟩
    signaled := s.signaled + if s.atSignal cfg then 1 else 0
    pc := .poll }

/-- The loop over `ibv_poll_cq` ends only with a completion. -/
def pollStep : Option State :=
  if s.polls cfg then
    if 0 < s.outstanding then some { s with polled := s.polled + 1, pc := .post } else none
  else some { s with pc := .post }

def postStep : State :=
  { s with
    lastSignaled := if (s.wr s.threadBatchCnt).signaled then s.sendTx else s.lastSignaled
    posted :=
      if s.threadBatchCnt &&& (cfg.threadQpBatch - 1) = cfg.threadQpBatch - 1 then
        s.posted ++ (List.range cfg.threadQpBatch).map s.wr
      else s.posted
    threadBatchCnt := (s.threadBatchCnt + 1) % cfg.threadQpBatch
    sendTx := s.sendTx + 1
    handled := s.handled + 1
    pc := .scan }

def next : Option State :=
  match s.pc with
  | .scan => some (s.stage cfg)
  | .poll => s.pollStep cfg
  | .post => some (s.postStep cfg)

end State

def system (cfg : Config) : System State Unit where
  start s := s.sendTx = 0 ∧ s.lastSignaled = 0 ∧ s.threadBatchCnt = 0 ∧ s.pc = .scan ∧
    s.handled = 0 ∧ s.signaled = 0 ∧ s.posted = [] ∧ s.polled = 0
  next s _ := s.next cfg

/-- The signalling interval is a power of two of 64 bits, and a batch is not longer. -/
structure Config.Valid (cfg : Config) : Prop where
  pow : ∃ m < 64, cfg.unsignalBatch = 2 ^ m
  pos : 1 ≤ cfg.threadQpBatch
  le : cfg.threadQpBatch ≤ cfg.unsignalBatch

def replyTo (cfg : Config) (i : ℕ) : Reply := ⟨i, UInt64.ofNat i, i % cfg.unsignalBatch = 0⟩

section
variable {cfg : Config}

theorem Config.Valid.dvd (h : cfg.Valid) : cfg.unsignalBatch ∣ 2 ^ 63 := by
  obtain ⟨m, hm, he⟩ := h.pow
  rw [he]
  exact pow_dvd_pow 2 (by omega)

theorem Config.Valid.unsignalBatch_pos (h : cfg.Valid) : 0 < cfg.unsignalBatch :=
  lt_of_lt_of_le h.pos h.le

/-- The mask selects the multiples of the interval, also after `send_tx` has wrapped. -/
theorem and_signalMask_iff (h : cfg.Valid) (n : ℕ) :
    UInt64.ofNat n &&& cfg.signalMask = 0 ↔ n % cfg.unsignalBatch = 0 := by
  obtain ⟨m, hm, he⟩ := h.pow
  have hlt : 2 ^ m < 2 ^ 64 := Nat.pow_lt_pow_right (by omega) hm
  have hmask : cfg.signalMask.toNat = 2 ^ m - 1 := by
    unfold Config.signalMask
    have hle : (1 : UInt64) ≤ UInt64.ofNat (2 ^ m) := by
      rw [UInt64.le_iff_toNat_le, UInt64.toNat_ofNat', mod_eq_of_lt hlt]
      exact Nat.one_le_two_pow
    rw [he, UInt64.toNat_sub_of_le _ _ hle, UInt64.toNat_ofNat', mod_eq_of_lt hlt]
    rfl
  rw [← UInt64.toNat_inj, UInt64.toNat_and, hmask, and_two_pow_sub_one_eq_mod,
    UInt64.toNat_ofNat', mod_mod_of_dvd _ (pow_dvd_pow 2 (by omega)), he]
  rfl

variable {b n d : ℕ}

theorem and_pred_eq_iff {c : ℕ} (hc : c < b) : c &&& (b - 1) = b - 1 ↔ c = b - 1 := by
  constructor
  · intro h
    have := and_le_left (n := c) (m := b - 1)
    omega
  · rintro rfl
    exact Nat.and_self _

def marks (cfg : Config) (n : ℕ) : ℕ := if n = 0 then 0 else (n - 1) / cfg.unsignalBatch + 1

theorem marks_succ (cfg : Config) (n : ℕ) :
    marks cfg (n + 1) = marks cfg n + if n % cfg.unsignalBatch = 0 then 1 else 0 := by
  unfold marks
  rw [if_neg (Nat.succ_ne_zero n), Nat.add_sub_cancel]
  cases n with
  | zero => simp
  | succ n =>
    rw [if_neg (Nat.succ_ne_zero n), Nat.add_sub_cancel, Nat.succ_div]
    simp only [dvd_iff_mod_eq_zero]
    omega

theorem countP_replyTo (cfg : Config) (n : ℕ) :
    ((List.range n).map (replyTo cfg)).countP (·.signaled) = marks cfg n := by
  induction n with
  | zero => rfl
  | succ n ih =>
    rw [range_succ, map_append, countP_append, ih, marks_succ]
    simp [replyTo, countP_cons]

theorem pred_div_eq (h : n % d ≠ 0) : (n - 1) / d = n / d := by
  cases n with
  | zero => simp at h
  | succ n =>
    rw [Nat.add_sub_cancel, Nat.succ_div, if_neg, Nat.add_zero]
    rwa [dvd_iff_mod_eq_zero]

theorem pred_div_add_one (hn : n ≠ 0) (h : n % d = 0) : (n - 1) / d + 1 = n / d := by
  cases n with
  | zero => exact absurd rfl hn
  | succ n =>
    rw [Nat.add_sub_cancel, Nat.succ_div, if_pos]
    rwa [dvd_iff_mod_eq_zero]

theorem succ_div_mod_of_full (hb : 0 < b) (h : n % b = b - 1) :
    (n + 1) / b = n / b + 1 ∧ (n + 1) % b = 0 := by
  have hdm := div_add_mod n b
  rw [Nat.div_mod_unique hb, Nat.mul_succ]
  omega

theorem succ_div_mod_of_not_full (hb : 0 < b) (h : n % b ≠ b - 1) :
    (n + 1) / b = n / b ∧ (n + 1) % b = n % b + 1 := by
  have hdm := div_add_mod n b
  have hlt := mod_lt n hb
  rw [Nat.div_mod_unique hb]
  omega

end

namespace State
variable {cfg : Config} {s : State}

/-- The variables as functions of the number of requests handled. -/
structure Inv (cfg : Config) (s : State) : Prop where
  sendTx : s.sendTx = UInt64.ofNat s.handled
  lastSignaled : s.lastSignaled =
    UInt64.ofNat ((s.handled - 1) / cfg.unsignalBatch * cfg.unsignalBatch)
  threadBatchCnt : s.threadBatchCnt = s.handled % cfg.threadQpBatch
  signaled : s.signaled = marks cfg (s.handled + if s.pc = .scan then 0 else 1)
  polled : s.polled =
    if s.pc = .post then s.handled / cfg.unsignalBatch else (s.handled - 1) / cfg.unsignalBatch
  posted : s.posted =
    (List.range (s.handled / cfg.threadQpBatch * cfg.threadQpBatch)).map (replyTo cfg)
  wr : ∀ c < s.handled % cfg.threadQpBatch + (if s.pc = .scan then 0 else 1),
    s.wr c = replyTo cfg (s.handled / cfg.threadQpBatch * cfg.threadQpBatch + c)

section
variable (h : s.Inv cfg)
include h

theorem Inv.atSignal_iff (hv : cfg.Valid) :
    s.atSignal cfg = true ↔ s.handled % cfg.unsignalBatch = 0 := by
  unfold atSignal
  rw [decide_eq_true_eq, h.sendTx]
  exact and_signalMask_iff hv _

theorem Inv.polls_iff (hv : cfg.Valid) :
    s.polls cfg = true ↔ s.handled % cfg.unsignalBatch = 0 ∧ s.handled ≠ 0 := by
  unfold polls
  rw [Bool.and_eq_true, h.atSignal_iff hv, bne_iff_ne, h.lastSignaled, h.sendTx]
  apply and_congr_right
  intro hmod
  by_cases h0 : s.handled = 0
  · simp [h0]
  · have hlast : (s.handled - 1) / cfg.unsignalBatch * cfg.unsignalBatch + cfg.unsignalBatch =
        s.handled := by
      rw [← succ_mul, succ_eq_add_one, pred_div_add_one h0 hmod]
      exact Nat.div_mul_cancel (Nat.dvd_of_mod_eq_zero hmod)
    have hch := Wrap.changed_iff (a := (s.handled - 1) / cfg.unsignalBatch * cfg.unsignalBatch)
      (le_refl cfg.unsignalBatch) (.inr hv.dvd)
    rw [hlast] at hch
    have hpos := hv.unsignalBatch_pos
    simp only [ne_eq, h0, not_false_eq_true, iff_true, hch]
    omega

theorem Inv.outstanding_pos (hv : cfg.Valid) (hpc : s.pc = .poll) (hp : s.polls cfg = true) :
    0 < s.outstanding := by
  obtain ⟨hmod, h0⟩ := (h.polls_iff hv).mp hp
  have hpolled := h.polled
  rw [hpc, if_neg (by decide)] at hpolled
  have hle := hv.le
  have hdm := div_add_mod s.handled cfg.threadQpBatch
  have hlt := mod_lt s.handled hv.pos
  have hk := pred_div_add_one h0 hmod
  have hkB : s.handled / cfg.unsignalBatch * cfg.unsignalBatch = s.handled :=
    Nat.div_mul_cancel (Nat.dvd_of_mod_eq_zero hmod)
  unfold outstanding
  rw [h.posted, countP_replyTo, hpolled]
  rw [mul_comm] at hdm
  generalize hm : s.handled / cfg.threadQpBatch * cfg.threadQpBatch = m at hdm
  rw [← hk] at hkB
  generalize (s.handled - 1) / cfg.unsignalBatch = k at hkB
  rw [succ_mul] at hkB
  have hmpos : m ≠ 0 := by
    rintro rfl
    omega
  unfold marks
  rw [if_neg hmpos]
  have hdiv : k ≤ (m - 1) / cfg.unsignalBatch := by
    rw [le_div_iff_mul_le hv.unsignalBatch_pos]
    omega
  omega

theorem Inv.stage (hv : cfg.Valid) (hpc : s.pc = .scan) : (s.stage cfg).Inv cfg := by
  have hsig := h.signaled
  have hpolled := h.polled
  have hwr := h.wr
  rw [hpc] at hsig hpolled hwr
  refine ⟨h.sendTx, h.lastSignaled, h.threadBatchCnt, ?_, hpolled, h.posted, ?_⟩
  · change s.signaled + (if s.atSignal cfg then 1 else 0) = marks cfg (s.handled + 1)
    rw [marks_succ, hsig]
    simp only [h.atSignal_iff hv]
    rfl
  · intro c hc
    change c < s.handled % cfg.threadQpBatch + 1 at hc
    change update s.wr s.threadBatchCnt ⟨s.handled, s.sendTx, s.atSignal cfg⟩ c =
      replyTo cfg (s.handled / cfg.threadQpBatch * cfg.threadQpBatch + c)
    rcases Nat.lt_succ_iff_lt_or_eq.mp hc with hc | rfl
    · rw [h.threadBatchCnt, update_of_ne hc.ne]
      exact hwr c hc
    · have hs : s.atSignal cfg = decide (s.handled % cfg.unsignalBatch = 0) := by
        rw [Bool.eq_iff_iff, h.atSignal_iff hv, decide_eq_true_eq]
      rw [h.threadBatchCnt, update_self, h.sendTx, hs, div_add_mod']
      rfl

theorem Inv.pollStep {t : State} (hv : cfg.Valid) (hpc : s.pc = .poll)
    (hn : s.pollStep cfg = some t) : t.Inv cfg := by
  have hsig := h.signaled
  have hpolled := h.polled
  have hwr := h.wr
  rw [hpc] at hsig hpolled hwr
  have hpolled : s.polled = (s.handled - 1) / cfg.unsignalBatch := hpolled
  unfold State.pollStep at hn
  by_cases hp : s.polls cfg = true
  · obtain ⟨hmod, h0⟩ := (h.polls_iff hv).mp hp
    rw [if_pos hp, if_pos (h.outstanding_pos hv hpc hp)] at hn
    cases hn
    refine ⟨h.sendTx, h.lastSignaled, h.threadBatchCnt, hsig, ?_, h.posted, hwr⟩
    change s.polled + 1 = s.handled / cfg.unsignalBatch
    rw [hpolled, pred_div_add_one h0 hmod]
  · rw [if_neg hp] at hn
    cases hn
    refine ⟨h.sendTx, h.lastSignaled, h.threadBatchCnt, hsig, ?_, h.posted, hwr⟩
    change s.polled = s.handled / cfg.unsignalBatch
    rw [hpolled]
    by_cases h0 : s.handled = 0
    · rw [h0]
    · exact pred_div_eq fun hmod => hp ((h.polls_iff hv).mpr ⟨hmod, h0⟩)

theorem Inv.postStep (hv : cfg.Valid) (hpc : s.pc = .post) : (s.postStep cfg).Inv cfg := by
  have hsig := h.signaled
  have hpolled := h.polled
  have hwr := h.wr
  rw [hpc] at hsig hpolled hwr
  have hwr : ∀ c < s.handled % cfg.threadQpBatch + 1,
      s.wr c = replyTo cfg (s.handled / cfg.threadQpBatch * cfg.threadQpBatch + c) := hwr
  have hlt := mod_lt s.handled hv.pos
  have hsend : s.sendTx + 1 = UInt64.ofNat (s.handled + 1) := by
    rw [h.sendTx, Wrap.ofNat_succ]
  have hlast : (if (s.wr s.threadBatchCnt).signaled then s.sendTx else s.lastSignaled) =
      UInt64.ofNat (s.handled / cfg.unsignalBatch * cfg.unsignalBatch) := by
    rw [h.threadBatchCnt, hwr _ (lt_succ_self _), div_add_mod']
    by_cases hmod : s.handled % cfg.unsignalBatch = 0
    · rw [Nat.div_mul_cancel (Nat.dvd_of_mod_eq_zero hmod)]
      simp [replyTo, hmod, h.sendTx]
    · rw [← pred_div_eq hmod]
      simp [replyTo, hmod, h.lastSignaled]
  have hcnt : (s.threadBatchCnt + 1) % cfg.threadQpBatch =
      (s.handled + 1) % cfg.threadQpBatch := by
    rw [h.threadBatchCnt, mod_add_mod]
  have hfull : s.threadBatchCnt &&& (cfg.threadQpBatch - 1) = cfg.threadQpBatch - 1 ↔
      s.handled % cfg.threadQpBatch = cfg.threadQpBatch - 1 := by
    rw [h.threadBatchCnt]
    exact and_pred_eq_iff hlt
  refine ⟨hsend, hlast, hcnt, hsig, hpolled, ?_, fun c hlt => ?_⟩
  · change (if _ then s.posted ++ (List.range cfg.threadQpBatch).map s.wr else s.posted) =
      (List.range ((s.handled + 1) / cfg.threadQpBatch * cfg.threadQpBatch)).map (replyTo cfg)
    by_cases hc : s.handled % cfg.threadQpBatch = cfg.threadQpBatch - 1
    · rw [if_pos (hfull.mpr hc), (succ_div_mod_of_full hv.pos hc).1, succ_mul, range_add,
        map_append, map_map, h.posted]
      congr 1
      apply map_congr_left
      intro c hmem
      have hmem := mem_range.mp hmem
      exact hwr c (by omega)
    · rw [if_neg (mt hfull.mp hc), (succ_div_mod_of_not_full hv.pos hc).1, h.posted]
  · change c < (s.handled + 1) % cfg.threadQpBatch + 0 at hlt
    by_cases hc : s.handled % cfg.threadQpBatch = cfg.threadQpBatch - 1
    · have hmod := (succ_div_mod_of_full hv.pos hc).2
      omega
    · obtain ⟨hdiv, hmod⟩ := succ_div_mod_of_not_full hv.pos hc
      change s.wr c = replyTo cfg ((s.handled + 1) / cfg.threadQpBatch * cfg.threadQpBatch + c)
      rw [hdiv]
      exact hwr c (by omega)

end

end State

theorem inv_of_reachable {cfg : Config} {s : State} (hv : cfg.Valid)
    (h : (system cfg).Reachable s) : s.Inv cfg := by
  apply System.Reachable.invariant _ _ h
  · rintro s ⟨hs, hl, hb, hpc, hh, hsig, hp, hpo⟩
    constructor
    · rw [hs, hh]
      rfl
    · rw [hl, hh]
      simp
    · rw [hb, hh, zero_mod]
    · simp [hsig, hh, hpc, marks]
    · simp [hpo, hh, hpc]
    · simp [hp, hh]
    · simp [hh, hpc]
  · intro s _ t hi hn
    unfold system State.next at hn
    cases hpc : s.pc with
    | scan =>
      simp only [hpc, Option.some.injEq] at hn
      rw [← hn]
      exact hi.stage hv hpc
    | poll =>
      simp only [hpc] at hn
      exact hi.pollStep hv hpc hn
    | post =>
      simp only [hpc, Option.some.injEq] at hn
      rw [← hn]
      exact hi.postStep hv hpc

def pairs : Config := ⟨2, 2⟩

def State.boot : State := ⟨0, 0, 0, fun _ => ⟨0, 0, false⟩, .scan, 0, 0, [], 0⟩

theorem boot_start : (system pairs).start .boot := ⟨rfl, rfl, rfl, rfl, rfl, rfl, rfl, rfl⟩

end Fusa.Server.ReplyLoop

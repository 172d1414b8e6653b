import Fusa.Driver.Batch
import Fusa.Lib.Modular

/-! The WQEs of a send queue lie apart: a ring of `max_post` times the largest WQE is not filled
beyond `max_post` of them. -/
namespace Fusa.Driver.Sq
open Bytes Transition Serial List Nat

namespace Batch

section
variable (cfg : Cfg) (overhead bbs : ℕ)

def behind (x : Ex) (n pos : ℕ) : ℕ :=
  dist (x.qp.wqeHead (pos % cfg.wqeCnt)) (x.qp.head + UInt32.ofNat n)

def outstanding (x : Ex) : ℕ := dist x.qp.tail x.qp.head

/-- `cur_post` when the batch under way started. -/
def base (s : Batch) : ℕ := if s.before.isSome then s.x.curPostRb else s.x.qp.curPost

def due (s : Batch) : ℕ := if s.needData || s.needAddr then 1 else 0

/-- A committed WQE: each later work request takes at most `bbs` building blocks. -/
structure Held (x : Ex) (base : ℕ) (w : Wqe) : Prop where
  pos : 1 ≤ w.bbs
  le : w.pos + w.bbs ≤ base
  lo : 1 ≤ behind cfg x 0 w.pos
  hi : behind cfg x 0 w.pos ≤ outstanding x
  near : base ≤ w.pos + bbs * behind cfg x 0 w.pos
  intact : wqeBytes cfg x.qp.mem w.pos w.bbs = w.bytes

/-- `cur_ctrl` points to a place where a WQE of the batch can be built. -/
structure Owns (s : Batch) (p : ℕ) : Prop where
  le : s.x.curPostRb ≤ p
  ctrl : s.x.curCtrl = cfg.slot p
  clear : ∀ w ∈ s.live, p + bbs ≤ w.pos + cfg.wqeCnt

structure Clean (s : Batch) : Prop where
  room : outstanding s.x + s.x.nreq ≤ cfg.maxPost.toNat
  last : s.due = 1 → 1 ≤ s.x.nreq ∧ behind cfg s.x s.x.nreq s.x.qp.curPost = 1
  ready : ∀ w ∈ s.ready, s.x.curPostRb ≤ w.1 ∧ 1 ≤ w.2 ∧ w.1 + w.2 ≤ s.x.qp.curPost ∧
    s.due < behind cfg s.x s.x.nreq w.1 ∧ behind cfg s.x s.x.nreq w.1 ≤ s.x.nreq ∧
    s.x.qp.curPost + bbs * s.due ≤ w.1 + bbs * behind cfg s.x s.x.nreq w.1
  sorted : s.ready.Pairwise fun v w =>
    behind cfg s.x s.x.nreq w.1 < behind cfg s.x s.x.nreq v.1

structure UnderWay (s : Batch) : Prop where
  le : s.x.curPostRb ≤ s.x.qp.curPost
  post : s.x.qp.curPost + bbs * s.due ≤ s.x.curPostRb + bbs * s.x.nreq
  nreq : s.x.nreq < 2 ^ 31
  own : s.own = true → ∃ p, Owns cfg bbs s p
  size : s.due = 1 → s.own = true ∧ 1 ≤ s.x.curSize ∧ 16 * s.x.curSize ≤ 64 * bbs
  data : s.needData = true → s.x.Aimed cfg overhead ∧
    (cfg.qpType = .rawPacket → cfg.ethMinInlineSize ≠ 0 → s.x.curEth = some (s.x.curCtrl + 16))
  setters : cfg.qpType.twoSetters = true → s.due = 1 →
    s.x.curSettersCnt = (!s.needData).toNat + (!s.needAddr).toNat
  addr : cfg.qpType.twoSetters = false → s.needAddr = false
  clean : s.x.err = none → Clean cfg bbs s

structure Inv (s : Batch) : Prop where
  live : ∀ w ∈ s.live, Held cfg bbs s.x s.base w
  sorted : s.live.Pairwise fun v w => behind cfg s.x 0 w.pos < behind cfg s.x 0 v.pos
  out : outstanding s.x ≤ cfg.maxPost.toNat
  eth : cfg.ethMinInlineSize = 0 → s.x.curEth = none
  batch : s.before.isSome → UnderWay cfg overhead bbs s

end

section
variable {cfg : Cfg} {ram : Ram} {overhead bbs : ℕ} {s t : Batch} {x x' : Ex}

theorem due_le_one : s.due ≤ 1 := by
  unfold due
  split <;> omega

variable {n k pos p : ℕ} {w : Wqe}

theorem behind_add (h : behind cfg x n pos + k < 2 ^ 32) :
    behind cfg x (n + k) pos = behind cfg x n pos + k := by
  unfold behind at h ⊢
  rw [UInt32.ofNat_add, ← UInt32.add_assoc]
  exact dist_add h

theorem mod_ne_of_near {a b : ℕ} (hab : a < b) (hba : b < a + cfg.wqeCnt) :
    a % cfg.wqeCnt ≠ b % cfg.wqeCnt := by
  intro h
  have hd : cfg.wqeCnt ∣ b - a := (modEq_iff_dvd' hab.le).mp h
  have := le_of_dvd (by omega) hd
  omega

theorem wqeBytes_kept {m m' : Mem} (h : Kept cfg.qend (cfg.slot p) (64 * bbs) m m')
    (hle : pos + n ≤ p) (hclear : p + bbs ≤ pos + cfg.wqeCnt) :
    wqeBytes cfg m' pos n = wqeBytes cfg m pos n := by
  unfold wqeBytes
  rw [cfg.slot_eq] at h ⊢
  refine h.slice_eq (by omega) ?_
  unfold Cfg.qend
  omega

theorem Inv.clear (hs : Sized cfg overhead bbs) (h : Inv cfg overhead bbs s)
    (hb : s.before.isSome) (hroom : wqOverflow cfg s.x.qp s.x.nreq = false) :
    outstanding s.x + s.x.nreq < cfg.maxPost.toNat ∧
      ∀ w ∈ s.live, s.x.qp.curPost + bbs ≤ w.pos + cfg.wqeCnt := by
  have hu := h.batch hb
  have hout := h.out
  have hpost := hs.post
  have hn := hu.nreq
  have hlt : outstanding s.x + s.x.nreq < cfg.maxPost.toNat := by
    have hsum : (s.x.qp.head - s.x.qp.tail + UInt32.ofNat s.x.nreq).toNat =
        outstanding s.x + s.x.nreq :=
      toNat_sub_add (by unfold outstanding at hout; omega)
    simp only [wqOverflow, decide_eq_false_iff_not, UInt32.le_iff_toNat_le, hsum] at hroom
    omega
  refine ⟨hlt, fun w hw => ?_⟩
  have hheld := h.live w hw
  have hnear := hheld.near
  have hring := hs.ring
  have hle := hu.post
  rw [base, if_pos hb] at hnear
  -- all work requests since `w`, with the one to come
  have hmul : bbs * (behind cfg s.x 0 w.pos + s.x.nreq + 1) ≤ bbs * cfg.maxPost.toNat :=
    mul_le_mul_left bbs (by have := hheld.hi; omega)
  rw [mul_add, mul_add, mul_one] at hmul
  have := le_add_right s.x.qp.curPost (bbs * s.due)
  omega

theorem Held.congr {base : ℕ} (h : Held cfg bbs x base w) (hh : x'.qp.head = x.qp.head)
    (ht : x'.qp.tail = x.qp.tail)
    (hw : x'.qp.wqeHead (w.pos % cfg.wqeCnt) = x.qp.wqeHead (w.pos % cfg.wqeCnt))
    (hm : wqeBytes cfg x'.qp.mem w.pos w.bbs = wqeBytes cfg x.qp.mem w.pos w.bbs) :
    Held cfg bbs x' base w := by
  have hb : behind cfg x' 0 w.pos = behind cfg x 0 w.pos := by
    rw [behind, behind, hh, hw]
  have ho : outstanding x' = outstanding x := by
    rw [outstanding, outstanding, hh, ht]
  exact ⟨h.pos, h.le, hb ▸ h.lo, hb ▸ ho ▸ h.hi, hb ▸ h.near, hm.trans h.intact⟩

section
variable (h : Inv cfg overhead bbs s)
include h

theorem Inv.of_kept (hb : s.before.isSome) (hle : s.x.curPostRb ≤ p)
    (hclear : ∀ w ∈ s.live, p + bbs ≤ w.pos + cfg.wqeCnt) (hlive : t.live = s.live)
    (hbefore : t.before = s.before) (hbooks : t.x.books = s.x.books)
    (hw : ∀ w ∈ s.live, t.x.qp.wqeHead (w.pos % cfg.wqeCnt) = s.x.qp.wqeHead (w.pos % cfg.wqeCnt))
    (hm : Kept cfg.qend (cfg.slot p) (64 * bbs) s.x.qp.mem t.x.qp.mem)
    (heth : cfg.ethMinInlineSize = 0 → t.x.curEth = s.x.curEth)
    (hbatch : UnderWay cfg overhead bbs t) : Inv cfg overhead bbs t := by
  simp only [Ex.books, Prod.mk.injEq] at hbooks
  obtain ⟨hrb, -, hhead, htail, -, -⟩ := hbooks
  have hbase : t.base = s.base := by
    rw [base, base, hbefore, if_pos hb, if_pos hb, hrb]
  refine ⟨fun w hmem => ?_, ?_, ?_, fun h0 => (heth h0).trans (h.eth h0), fun _ => hbatch⟩
  · rw [hlive] at hmem
    have hheld := h.live w hmem
    have hfront : w.pos + w.bbs ≤ p := by
      have := hheld.le
      rw [base, if_pos hb] at this
      omega
    rw [hbase]
    exact hheld.congr hhead htail (hw w hmem) (wqeBytes_kept hm hfront (hclear w hmem))
  · rw [hlive]
    refine h.sorted.imp_of_mem fun {v w} hv hw' hlt => ?_
    rwa [behind, behind, hw v hv, hw w hw', hhead]
  · rw [outstanding, hhead, htail]
    exact h.out

theorem Inv.start (hb : s.before = none) :
    Inv cfg overhead bbs { s with
      x := s.x.start, before := some s.x.qp, ready := []
      own := false, needData := false, needAddr := false } := by
  have hbase : s.base = s.x.qp.curPost := if_neg (by simp [hb])
  refine ⟨fun w hw => ?_, h.sorted, h.out, h.eth, fun _ => ?_⟩
  · have hheld := h.live w hw
    rw [hbase] at hheld
    exact hheld.congr rfl rfl rfl rfl
  exact
    { le := le_rfl
      post := by simp [due, Ex.start]
      nreq := by simp [Ex.start]
      own := fun ho => by cases ho
      size := fun hd => by simp [due] at hd
      data := fun hd => by cases hd
      setters := fun _ hd => by simp [due] at hd
      addr := fun _ => rfl
      clean := fun _ => ⟨h.out, fun hd => by simp [due] at hd, fun w hw => (by cases hw), .nil⟩ }

theorem Inv.rollBack (hb : s.before.isSome) :
    Inv cfg overhead bbs { s with x := s.x.rollBack, before := none } := by
  have hbase : s.base = s.x.curPostRb := if_pos hb
  refine ⟨fun w hw => ?_, h.sorted, h.out, h.eth, fun hn => by cases hn⟩
  have hheld := h.live w hw
  rw [hbase] at hheld
  exact hheld.congr rfl rfl rfl rfl

end

theorem postSendDb_head (cfg : Cfg) (qp : Qp) (nreq : ℕ) (l : Locals) :
    (postSendDb cfg qp nreq l).head = qp.head + UInt32.ofNat nreq := by
  unfold postSendDb
  split
  · rename_i h
    rw [h]
    simp
  · rfl

theorem postSendDb_keeps (cfg : Cfg) (qp : Qp) (nreq : ℕ) (l : Locals) :
    (postSendDb cfg qp nreq l).tail = qp.tail ∧ (postSendDb cfg qp nreq l).wqeHead = qp.wqeHead ∧
      (postSendDb cfg qp nreq l).mem = qp.mem ∧
      (postSendDb cfg qp nreq l).curPost = qp.curPost := by
  unfold postSendDb
  split <;> exact ⟨rfl, rfl, rfl, rfl⟩

theorem complete_of_clean (cfg : Cfg) (h : x.err = none) :
    ∃ l, x.complete cfg = ({ x with qp := postSendDb cfg x.qp x.nreq l }, none) := by
  unfold Ex.complete
  split
  · rename_i e he
    rw [h] at he
    cases he
  · exact ⟨_, rfl⟩

theorem Inv.commit (hs : Sized cfg overhead bbs) (h : Inv cfg overhead bbs s)
    (hb : s.before.isSome) (herr : s.x.err = none) (l : Locals) :
    Inv cfg overhead bbs { s with
      x := { s.x with qp := postSendDb cfg s.x.qp s.x.nreq l }
      live := s.live ++
        s.ready.map (Batch.commit cfg (postSendDb cfg s.x.qp s.x.nreq l).mem)
      before := none } := by
  have hu := h.batch hb
  have hc := hu.clean herr
  have hroom := hc.room
  have hpost := hs.post
  have hle := hu.le
  have hup : s.x.qp.curPost ≤ s.x.curPostRb + bbs * s.x.nreq := (le_add_right _ _).trans hu.post
  have hbase : s.base = s.x.curPostRb := if_pos hb
  obtain ⟨htail, hwqe, hmem, hcur⟩ := postSendDb_keeps cfg s.x.qp s.x.nreq l
  have hhead := postSendDb_head cfg s.x.qp s.x.nreq l
  generalize hx : ({ s.x with qp := postSendDb cfg s.x.qp s.x.nreq l } : Ex) = y
  have hqp : y.qp = postSendDb cfg s.x.qp s.x.nreq l := by rw [← hx]
  rw [← hqp] at htail hwqe hmem hcur hhead ⊢
  have hbeh (pos : ℕ) : behind cfg y 0 pos = behind cfg s.x s.x.nreq pos := by
    rw [behind, behind, hwqe, hhead]
    simp
  have hlive (w : Wqe) (hw : w ∈ s.live) :
      behind cfg y 0 w.pos = behind cfg s.x 0 w.pos + s.x.nreq := by
    have hhi := (h.live w hw).hi
    rw [hbeh, ← behind_add (by omega), zero_add]
  have hout : outstanding y = outstanding s.x + s.x.nreq := by
    rw [outstanding, htail, hhead]
    exact dist_add (by unfold outstanding at hroom; omega)
  refine ⟨fun w hw => ?_, ?_, by rw [hout]; exact hroom, fun h0 => ?_, fun hn => by cases hn⟩
  · simp only [base, Option.isSome_none, Bool.false_eq_true, if_false]
    rcases mem_append.mp hw with hw | hw
    · have hheld := h.live w hw
      have hnear := hheld.near
      have hb' := hlive w hw
      rw [hbase] at hnear
      refine ⟨hheld.pos, ?_, ?_, ?_, ?_, ?_⟩
      · have := hheld.le
        omega
      · have := hheld.lo
        omega
      · have := hheld.hi
        omega
      · rw [hb', mul_add]
        omega
      · rw [hmem]
        exact hheld.intact
    · obtain ⟨v, hv, rfl⟩ := mem_map.mp hw
      obtain ⟨-, hpos, hend, hlo, hhi, hnear⟩ := hc.ready v hv
      have hv' := hbeh v.1
      refine ⟨hpos, ?_, ?_, ?_, ?_, rfl⟩ <;> simp only [Batch.commit]
      iterate 3 · omega
      · rw [hv', hcur]
        exact (le_add_right _ _).trans hnear
  · refine pairwise_append.mpr ⟨?_, ?_, fun v hv w hw => ?_⟩
    · refine h.sorted.imp_of_mem fun {v w} hv hw hlt => ?_
      rw [hlive v hv, hlive w hw]
      omega
    · refine pairwise_map.mpr (hc.sorted.imp fun {v w} hlt => ?_)
      rwa [hbeh, hbeh]
    · obtain ⟨u, hu', rfl⟩ := mem_map.mp hw
      obtain ⟨-, -, -, -, hhi, -⟩ := hc.ready u hu'
      have hlo := (h.live v hv).lo
      change behind cfg y 0 u.1 < behind cfg y 0 v.pos
      rw [hbeh, hlive v hv]
      omega
  · rw [← hx]
    exact h.eth h0

theorem Inv.poll (h : Inv cfg overhead bbs s) (hn : s.live[n]? = some w) : Inv cfg overhead bbs
      { s with x := retire cfg w.pos s.x, live := s.live.drop (n + 1) } := by
  have hw := h.live w (mem_of_getElem? hn)
  have hlt : n < s.live.length := (List.getElem?_eq_some_iff.mp hn).1
  have hdrop : s.live.drop n = w :: s.live.drop (n + 1) := by
    rw [drop_eq_getElem_cons hlt, (List.getElem?_eq_some_iff.mp hn).2]
  have hsub : ∀ v ∈ s.live.drop (n + 1), v ∈ s.live := fun v hv => mem_of_mem_drop hv
  have hlater : ∀ v ∈ s.live.drop (n + 1), behind cfg s.x 0 v.pos < behind cfg s.x 0 w.pos := by
    have hp := h.sorted.sublist (drop_sublist n s.live)
    rw [hdrop] at hp
    exact (pairwise_cons.mp hp).1
  have hout : outstanding (retire cfg w.pos s.x) = behind cfg s.x 0 w.pos - 1 := by
    have hlo := hw.lo
    unfold behind at hlo ⊢
    rw [show UInt32.ofNat 0 = 0 from rfl, UInt32.add_zero] at hlo ⊢
    exact dist_succ hlo
  have hless : outstanding (retire cfg w.pos s.x) ≤ outstanding s.x := by
    have := hw.hi
    omega
  refine ⟨fun v hv => ?_, h.sorted.sublist (drop_sublist _ _), hless.trans h.out, h.eth,
    fun hb => ?_⟩
  · have hheld := h.live v (hsub v hv)
    refine ⟨hheld.pos, hheld.le, hheld.lo, ?_, hheld.near, hheld.intact⟩
    have := hlater v hv
    change behind cfg s.x 0 v.pos ≤ outstanding (retire cfg w.pos s.x)
    omega
  · have hu := h.batch hb
    refine ⟨hu.le, hu.post, hu.nreq, fun ho => ?_, hu.size, fun hd => ?_, hu.setters, hu.addr,
      fun he => ?_⟩
    · obtain ⟨p, hp⟩ := hu.own ho
      exact ⟨p, hp.le, hp.ctrl, fun v hv => hp.clear v (hsub v hv)⟩
    · exact ⟨(hu.data hd).1.congr rfl rfl rfl, (hu.data hd).2⟩
    · have hc := hu.clean he
      refine ⟨?_, hc.last, hc.ready, hc.sorted⟩
      have := hc.room
      change outstanding (retire cfg w.pos s.x) + s.x.nreq ≤ _
      omega

/-- A call with `d` new work requests that moves `cur_post` by `k` to complete a WQE. -/
theorem Clean.step (h : Clean cfg bbs s) {d : ℕ} (hrb : t.x.curPostRb = s.x.curPostRb)
    (hroom : outstanding t.x + t.x.nreq ≤ cfg.maxPost.toNat) (hnreq : t.x.nreq = s.x.nreq + d)
    (hpost : t.x.qp.curPost = s.x.qp.curPost + k)
    (hbeh : ∀ w ∈ s.ready, behind cfg t.x t.x.nreq w.1 = behind cfg s.x s.x.nreq w.1 + d)
    (hlast : t.due = 1 → 1 ≤ t.x.nreq ∧ behind cfg t.x t.x.nreq t.x.qp.curPost = 1)
    (hdue : t.due ≤ s.due + d) (hbbs : k + bbs * t.due ≤ bbs * (s.due + d))
    (hready : t.ready = note s.x t.x s.ready)
    (hnew : k ≠ 0 → t.due = 0 ∧ s.due + d ≠ 0 ∧ k ≤ bbs ∧ s.x.curPostRb ≤ s.x.qp.curPost ∧ 1 ≤
      t.x.nreq ∧ behind cfg t.x t.x.nreq s.x.qp.curPost = 1) : Clean cfg bbs t := by
  rw [mul_add] at hbbs
  have hold : ∀ w ∈ s.ready, t.x.curPostRb ≤ w.1 ∧ 1 ≤ w.2 ∧ w.1 + w.2 ≤ t.x.qp.curPost ∧
      t.due < behind cfg t.x t.x.nreq w.1 ∧ behind cfg t.x t.x.nreq w.1 ≤ t.x.nreq ∧
      t.x.qp.curPost + bbs * t.due ≤ w.1 + bbs * behind cfg t.x t.x.nreq w.1 := fun w hw => by
    obtain ⟨h₁, h₂, h₃, h₄, h₅, h₆⟩ := h.ready w hw
    rw [hbeh w hw, hrb, hpost, hnreq, mul_add]
    exact ⟨h₁, h₂, by omega, by omega, by omega, by omega⟩
  have hsorted : s.ready.Pairwise fun v w =>
      behind cfg t.x t.x.nreq w.1 < behind cfg t.x t.x.nreq v.1 :=
    h.sorted.imp_of_mem fun {v w} hv hw hvw => by
      rw [hbeh v hv, hbeh w hw]
      omega
  rw [note, hpost] at hready
  by_cases hk : k = 0
  · rw [if_pos (by omega)] at hready
    exact ⟨hroom, hlast, hready ▸ hold, hready ▸ hsorted⟩
  · obtain ⟨hzero, hpos, hkb, hle, hone, hnow⟩ := hnew hk
    rw [if_neg (by omega), Nat.add_sub_cancel_left] at hready
    refine ⟨hroom, hlast, fun w hw => ?_, ?_⟩
    · rw [hready] at hw
      rcases mem_append.mp hw with hw | hw
      · exact hold w hw
      · obtain rfl := mem_singleton.mp hw
        rw [hnow, hrb, hpost, hzero]
        exact ⟨hle, by omega, le_rfl, by omega, hone, by omega⟩
    · rw [hready]
      refine pairwise_append.mpr
        ⟨hsorted, pairwise_singleton _ _, fun v hv w hw => ?_⟩
      obtain rfl := mem_singleton.mp hw
      obtain ⟨-, -, -, h₄, -, -⟩ := h.ready v hv
      rw [hbeh v hv, hnow]
      omega

end

end Batch

end Fusa.Driver.Sq

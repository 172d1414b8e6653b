import Fusa.Driver.BatchInv
import Fusa.Driver.FailedPost

/-! Committed WQEs stay as they are as long as builders and setters work on a WQE of their own
batch. -/
namespace Fusa.Driver.Sq
open Bytes Transition Serial Function Option Nat

namespace Batch

section
variable {cfg : Cfg} {ram : Ram} {overhead bbs : ℕ} {s t : Batch} {x x' : Ex} {st : Setter} {p : ℕ}

theorem UnderWay.set_done (ram : Ram) (hs : Sized cfg overhead bbs)
    (hu : UnderWay cfg overhead bbs s) (heth : cfg.ethMinInlineSize = 0 → s.x.curEth = none)
    (hdue : if st.isAddr then s.needAddr = true else s.needData = true)
    (hp : s.x.curCtrl = cfg.slot p) : Ex.Done cfg bbs s.x (s.x.set cfg ram st) ∧
      (st.isAddr = true → (s.x.set cfg ram st).curData = s.x.curData ∧
        (s.x.set cfg ram st).curSize = s.x.curSize) := by
  cases hst : st.isAddr with
  | true =>
    rw [hst, if_pos rfl] at hdue
    obtain ⟨-, hlo, hhi⟩ := hu.size (by simp [due, hdue])
    have hraw : cfg.qpType ≠ .rawPacket := fun hr => by
      have := hu.addr (hr ▸ rfl)
      rw [this] at hdue
      cases hdue
    obtain ⟨hdone, hsame⟩ := Ex.set_addr ram hp hraw hlo hhi hst
    exact ⟨hdone, fun _ => hsame⟩
  | false =>
    simp only [hst] at hdue
    obtain ⟨ha, hraw⟩ := hu.data (by simpa using hdue)
    refine ⟨Ex.set_data hs hp ha (fun hr eseg he => ?_) hst, fun h => by cases h⟩
    by_cases h0 : cfg.ethMinInlineSize = 0
    · rw [heth h0] at he
      cases he
    · rw [hraw hr h0] at he
      exact (some.inj he).symm

theorem UnderWay.set (hu : UnderWay cfg overhead bbs s) (hone : s.due = 1) (hp : Owns cfg bbs s p)
    {a : Bool} (hdone : Ex.Done cfg bbs s.x t.x)
    (hdue : if a then s.needAddr = true else s.needData = true)
    (hsame : a = true → t.x.curData = s.x.curData ∧ t.x.curSize = s.x.curSize)
    (hbooks : t.x.books = s.x.books) (hlive : t.live = s.live) (hown : t.own = s.own)
    (hnd : t.needData = (s.needData && a)) (hna : t.needAddr = (s.needAddr && !a))
    (hready : t.ready = note s.x t.x s.ready) : UnderWay cfg overhead bbs t := by
  have hle := hu.le
  have hpost := hu.post
  simp only [Ex.books, Prod.mk.injEq] at hbooks
  obtain ⟨hrb, -, hhead, htail, -, -⟩ := hbooks
  have hdue1 := due_le_one (s := t)
  rw [hone, mul_one] at hpost
  -- what holds whether the WQE is complete or not
  have hown' : t.own = true → ∃ q, Owns cfg bbs t q := fun _ =>
    ⟨p, hrb ▸ hp.le, hdone.ctrl.trans hp.ctrl, fun w hw => hp.clear w (hlive ▸ hw)⟩
  have hdata : t.needData = true → t.x.Aimed cfg overhead ∧ (cfg.qpType = .rawPacket →
      cfg.ethMinInlineSize ≠ 0 → t.x.curEth = some (t.x.curCtrl + 16)) := fun hd => by
    rw [hnd, Bool.and_eq_true] at hd
    obtain ⟨ha, he⟩ := hu.data hd.1
    rw [hdone.eth, hdone.ctrl]
    exact ⟨ha.congr hdone.ctrl (hsame hd.2).1 (hsame hd.2).2, he⟩
  have haddr : cfg.qpType.twoSetters = false → t.needAddr = false := fun h2 => by
    rw [hna, hu.addr h2, Bool.false_and]
  have hsize : t.due = 1 → t.own = true ∧ 1 ≤ t.x.curSize ∧ 16 * t.x.curSize ≤ 64 * bbs :=
    fun _ => ⟨hown.trans (hu.size hone).1, hdone.lo, hdone.hi⟩
  have hmul : bbs * t.due ≤ bbs := by
    simpa using mul_le_mul_left bbs hdue1
  have hn := hdone.nreq
  have hbeh (pos : ℕ) : behind cfg t.x t.x.nreq pos = behind cfg s.x s.x.nreq pos := by
    rw [hn, behind, behind, hdone.wqeHead, hhead]
  have hroom (hc : Clean cfg bbs s) : outstanding t.x + t.x.nreq ≤ cfg.maxPost.toNat := by
    rw [outstanding, hhead, htail, hn]
    exact hc.room
  rcases hdone.post with ⟨hcur, hcnt⟩ | ⟨hcnt, k, hk, hkb, hcur⟩
  · refine ⟨by omega, by rw [hcur, hrb, hn]; omega, hn ▸ hu.nreq, hown', hsize, hdata, ?_, haddr,
      fun he => ?_⟩
    · intro h2 hd
      rw [hcnt h2, hu.setters h2 hone, hnd, hna]
      cases a
      · simp [show s.needData = true from hdue]
        omega
      · simp [show s.needAddr = true from hdue]
    · have hc := hu.clean (hdone.err he)
      refine hc.step (d := 0) (k := 0) hrb (hroom hc) hn hcur (fun w _ => hbeh w.1) (fun _ => ?_)
        (by omega) (by simpa [hone] using hmul) hready fun h => absurd rfl h
      rw [hbeh, hn, hcur]
      exact hc.last hone
  · have hzero : t.due = 0 := by
      unfold due
      rw [hnd, hna]
      cases h2 : cfg.qpType.twoSetters with
      | false =>
        have hno := hu.addr h2
        cases a <;> simp [hno] at hdue ⊢
      | true =>
        have hc := hcnt h2
        rw [hu.setters h2 hone] at hc
        cases a <;> simp only [Bool.false_eq_true, if_false, if_true] at hdue <;>
          simp [hdue] at hc ⊢
        · exact hc
        · exact hc
    refine ⟨by omega, by rw [hcur, hrb, hn, hzero]; omega, hn ▸ hu.nreq, hown', hsize, hdata,
      fun _ hd => by omega, haddr, fun he => ?_⟩
    have hc := hu.clean (hdone.err he)
    obtain ⟨hreq, hlast⟩ := hc.last hone
    exact hc.step (d := 0) hrb (hroom hc) hn hcur (fun w _ => hbeh w.1) (fun hd => by omega)
      (by omega) (by simpa [hone, hzero] using hkb) hready fun _ =>
      ⟨hzero, by omega, hkb, hle, hn ▸ hreq, (hbeh _).trans hlast⟩

theorem Inv.set (hs : Sized cfg overhead bbs) (h : Inv cfg overhead bbs s) (hb : s.before.isSome)
    (hdue : if st.isAddr then s.needAddr = true else s.needData = true) :
    Inv cfg overhead bbs { s with
      x := s.x.set cfg ram st, ready := note s.x (s.x.set cfg ram st) s.ready
      needData := s.needData && st.isAddr
      needAddr := s.needAddr && !st.isAddr } := by
  have hu := h.batch hb
  have hone : s.due = 1 := by
    unfold due
    split at hdue <;> simp [hdue]
  obtain ⟨p, hp⟩ := hu.own (hu.size hone).1
  obtain ⟨hdone, hsame⟩ := hu.set_done ram hs h.eth hdue hp.ctrl
  have hbooks := Ex.books_set cfg ram s.x st
  refine h.of_kept hb hp.le hp.clear rfl rfl hbooks (fun w _ => by rw [hdone.wqeHead])
    (hp.ctrl ▸ hdone.mem) (fun _ => hdone.eth) ?_
  exact hu.set hone hp hdone hdue hsame hbooks rfl rfl rfl rfl rfl

/-- What `_common_wqe_init` leaves: a place of the batch that `cur_ctrl` points to. -/
structure Begun (cfg : Cfg) (bbs : ℕ) (s : Batch) (x : Ex) (p : ℕ) : Prop where
  le : s.x.curPostRb ≤ p
  ctrl : x.curCtrl = cfg.slot p
  clear : ∀ w ∈ s.live, p + bbs ≤ w.pos + cfg.wqeCnt
  mem : Kept cfg.qend (cfg.slot p) (64 * bbs) s.x.qp.mem x.qp.mem
  nreq : x.nreq = s.x.nreq
  post : x.qp.curPost = s.x.qp.curPost
  eth : x.curEth = s.x.curEth
  live : ∀ w ∈ s.live,
    x.qp.wqeHead (w.pos % cfg.wqeCnt) = s.x.qp.wqeHead (w.pos % cfg.wqeCnt)
  err : x.err = none → s.x.err = none ∧
    outstanding s.x + s.x.nreq < cfg.maxPost.toNat ∧
    x.qp.wqeHead = Function.update s.x.qp.wqeHead (s.x.qp.curPost % cfg.wqeCnt)
      (s.x.qp.head + UInt32.ofNat s.x.nreq)

section
variable (hs : Sized cfg overhead bbs)
include hs

theorem Inv.begun (h : Inv cfg overhead bbs s) (hb : s.before.isSome)
    (hroom : s.own = true ∨ wqOverflow cfg s.x.qp s.x.nreq = false) (wrId : UInt64)
    (flags : SendFlags) (op : Opcode) :
    ∃ p, Begun cfg bbs s (Ex.commonWqeInit cfg wrId flags op s.x) p := by
  have hu := h.batch hb
  have hbb := hs.bbs_pos
  cases hov : wqOverflow cfg s.x.qp s.x.nreq with
  | true =>
    obtain ⟨p, hp⟩ := hu.own (by simpa [hov] using hroom)
    rw [Ex.commonWqeInit, if_pos hov]
    exact ⟨p, hp.le, hp.ctrl, hp.clear, .refl, rfl, rfl, rfl, fun _ _ => rfl,
      fun he => absurd he Ex.fail_ne_none⟩
  | false =>
    obtain ⟨hlt, hclear⟩ := h.clear hs hb hov
    rw [Ex.commonWqeInit, if_neg (by simp [hov])]
    refine ⟨s.x.qp.curPost, hu.le, rfl, hclear, ?_, rfl, rfl, rfl, fun w hw => ?_,
      fun he => ⟨he, hlt, rfl⟩⟩
    · have h₁ : Kept cfg.qend (cfg.slot s.x.qp.curPost) (64 * bbs) s.x.qp.mem
          (Bytes.put s.x.qp.mem (cfg.slot s.x.qp.curPost + 8) (be32 0)) := kept_ctrl hbb (by simp)
      exact (h₁.trans (kept_ctrl hbb (by simp))).trans (kept_ctrl (o := 0) hbb (by simp))
    · have hheld := h.live w hw
      have hfront := hheld.le
      have hpos := hheld.pos
      have hc := hclear w hw
      have hle := hu.le
      rw [base, if_pos hb] at hfront
      exact update_of_ne (mod_ne_of_near (by omega) (by omega)) _ _

theorem Begun.behind {y : Ex} (hu : UnderWay cfg overhead bbs s) (h : Begun cfg bbs s x p)
    (he : x.err = none) (hw : y.qp.wqeHead = x.qp.wqeHead) (hhead : y.qp.head = s.x.qp.head) :
    behind cfg y (s.x.nreq + 1) s.x.qp.curPost = 1 ∧
      ∀ w ∈ s.ready, behind cfg y (s.x.nreq + 1) w.1 = behind cfg s.x s.x.nreq w.1 + 1 := by
  obtain ⟨he', hlt, hupd⟩ := h.err he
  have hc := hu.clean he'
  refine ⟨?_, fun w hw' => ?_⟩
  · rw [Batch.behind, hw, hupd, update_self, hhead, UInt32.ofNat_add, ← UInt32.add_assoc]
    exact dist_add_self (by omega)
  · obtain ⟨-, hpos, hend, hlo, hhi, hnear⟩ := hc.ready w hw'
    have hring := hs.ring
    have hnr := hu.nreq
    -- the WQEs of the batch are less than the ring apart
    have hmul : bbs * (Batch.behind cfg s.x s.x.nreq w.1 + 1) ≤ bbs * cfg.maxPost.toNat :=
      mul_le_mul_left bbs (by omega)
    have hbb := hs.bbs_pos
    rw [mul_add, mul_one] at hmul
    have hcur := le_add_right s.x.qp.curPost (bbs * s.due)
    have hne : w.1 % cfg.wqeCnt ≠ s.x.qp.curPost % cfg.wqeCnt :=
      mod_ne_of_near (by omega) (by omega)
    rw [← behind_add (by omega), Batch.behind, Batch.behind, hw, hupd, hhead, update_of_ne hne]

theorem UnderWay.build (hu : UnderWay cfg overhead bbs s) (hx : Begun cfg bbs s x p)
    (hnreq : s.x.nreq + 1 < 2 ^ 31) {takes : Bool} (hst : Ex.Stored cfg bbs x t.x)
    (hopen : takes = true → Ex.Opened cfg overhead x t.x)
    (hclose : takes = false → Ex.Closed bbs x t.x ∨ Ex.Failed x t.x)
    (hbooks : t.x.books = s.x.books) (hlive : t.live = s.live) (hown : t.own = true)
    (hnd : t.needData = takes) (hna : t.needAddr = (takes && cfg.qpType.twoSetters))
    (hready : t.ready = note s.x t.x s.ready) : UnderWay cfg overhead bbs t := by
  have hle := hu.le
  have hpost := hu.post
  have hn := hx.nreq
  have hcur := hx.post
  have hinl := hs.inl
  simp only [Ex.books, Prod.mk.injEq] at hbooks
  obtain ⟨hrb, -, hhead, htail, -, -⟩ := hbooks
  have hown' : t.own = true → ∃ q, Owns cfg bbs t q := fun _ =>
    ⟨p, hrb ▸ hx.le, hst.ctrl.trans hx.ctrl, fun w hw => hx.clear w (hlive ▸ hw)⟩
  have haddr : cfg.qpType.twoSetters = false → t.needAddr = false := fun h2 => by
    rw [hna, h2, Bool.and_false]
  have hout : outstanding t.x = outstanding s.x := by
    rw [outstanding, outstanding, hhead, htail]
  have hmul : bbs * (s.x.nreq + 1) = bbs * s.x.nreq + bbs := by rw [mul_add, mul_one]
  have hlow := le_add_right s.x.qp.curPost (bbs * s.due)
  cases takes with
  | true =>
    obtain ⟨herr, hn', hcur', ha, hcnt, heth⟩ := hopen rfl
    have hdue : t.due = 1 := by simp [due, hnd]
    refine ⟨by omega, ?_, by omega, hown', fun _ => ⟨hown, ha.pos, ?_⟩, fun _ => ⟨ha, heth⟩, ?_,
      haddr, fun he => ?_⟩
    · rw [hdue, hcur', hcur, hn', hn, hrb, hmul]
      omega
    · have := ha.le
      omega
    · intro h2 _
      rw [hcnt h2, hnd, hna, h2]
      rfl
    · obtain ⟨hclean, hlt, -⟩ := hx.err (hst.err he)
      obtain ⟨hlast, hbeh⟩ := hx.behind hs hu (hst.err he) hst.wqeHead hhead
      have hnext : t.x.nreq = s.x.nreq + 1 := by omega
      have hsame : t.x.qp.curPost = s.x.qp.curPost := by omega
      rw [← hnext] at hlast hbeh
      exact (hu.clean hclean).step (k := 0) hrb (by omega) hnext hsame hbeh
        (fun _ => ⟨by omega, hsame ▸ hlast⟩) (by omega) (by rw [hdue, mul_add]; omega) hready
        fun h => absurd rfl h
  | false =>
    have hdue : t.due = 0 := by simp [due, hnd, hna]
    have hsize : t.due = 1 → t.own = true ∧ 1 ≤ t.x.curSize ∧ 16 * t.x.curSize ≤ 64 * bbs :=
      fun hd => by omega
    have hdata : t.needData = true → t.x.Aimed cfg overhead ∧ (cfg.qpType = .rawPacket →
        cfg.ethMinInlineSize ≠ 0 → t.x.curEth = some (t.x.curCtrl + 16)) := fun hd => by
      rw [hnd] at hd
      cases hd
    rcases hclose rfl with ⟨herr, hn', k, hk, hkb, hcur'⟩ | ⟨herr, hn', hcur'⟩
    · refine ⟨by omega, ?_, by omega, hown', hsize, hdata, fun _ hd => by omega, haddr,
        fun he => ?_⟩
      · rw [hdue, hcur', hcur, hn', hn, hrb, hmul]
        omega
      · obtain ⟨hclean, hlt, -⟩ := hx.err (hst.err he)
        obtain ⟨hlast, hbeh⟩ := hx.behind hs hu (hst.err he) hst.wqeHead hhead
        have hnext : t.x.nreq = s.x.nreq + 1 := by omega
        rw [← hnext] at hlast hbeh
        exact (hu.clean hclean).step (k := k) hrb (by omega) hnext (by omega) hbeh
          (fun hd => by omega) (by omega) (by rw [hdue, mul_add]; omega) hready
          fun _ => ⟨hdue, by omega, hkb, hle, by omega, hlast⟩
    · refine ⟨by omega, ?_, by omega, hown', hsize, hdata, fun _ hd => by omega, haddr,
        fun he => absurd he herr⟩
      rw [hdue, hcur', hcur, hn', hn, hrb]
      omega

theorem Inv.build (h : Inv cfg overhead bbs s) (hb : s.before.isSome) {b : Builder}
    (hbuilds : cfg.qpType.builds b.opcode = true) (hle : headSz cfg b.opcode ≤ overhead)
    (hnreq : s.x.nreq + 1 < 2 ^ 31) (hroom : s.own = true ∨ wqOverflow cfg s.x.qp s.x.nreq = false)
    (wrId : UInt64) (flags : SendFlags) :
    Inv cfg overhead bbs { s with
      x := s.x.build cfg wrId flags b
      ready := note s.x (s.x.build cfg wrId flags b) s.ready
      own := s.own || !wqOverflow cfg s.x.qp s.x.nreq
      needData := b.takes cfg flags
      needAddr := b.takes cfg flags && cfg.qpType.twoSetters } := by
  obtain ⟨p, hp⟩ := h.begun hs hb hroom wrId flags b.opcode
  obtain ⟨hst, heth, hopen, hclose⟩ := Ex.segments_spec hp.ctrl hs hbuilds hle flags
  have hbooks := Ex.books_build cfg s.x wrId flags b
  refine h.of_kept hb hp.le hp.clear rfl rfl hbooks (fun w hw => ?_)
    (hp.mem.trans (hp.ctrl ▸ hst.mem)) (fun h0 => (heth h0).trans hp.eth) ?_
  · change (Ex.segments cfg flags b _).qp.wqeHead _ = _
    rw [hst.wqeHead]
    exact hp.live w hw
  · refine (h.batch hb).build hs hp hnreq hst hopen hclose hbooks rfl ?_ rfl rfl rfl
    simpa using hroom

theorem Inv.next {ops : Opcode → Bool}
    (hops : ∀ op, ops op = true → cfg.qpType.builds op = true → headSz cfg op ≤ overhead)
    (h : Inv cfg overhead bbs s) {a : Call} (ho : Orderly cfg ops s a)
    (hn : next cfg ram s a = some t) : Inv cfg overhead bbs t := by
  cases a with
  | start =>
    obtain ⟨hb, ⟨⟩⟩ := ite_none_right_eq_some.mp hn
    exact h.start (isNone_iff_eq_none.mp hb)
  | build wrId flags b =>
    obtain ⟨hb, ⟨⟩⟩ := ite_none_right_eq_some.mp hn
    obtain ⟨hop, hnreq, hroom⟩ := ho
    exact h.build hs hb.1 hb.2 (hops b.opcode hop hb.2) hnreq hroom wrId flags
  | set st =>
    obtain ⟨hb, ⟨⟩⟩ := ite_none_right_eq_some.mp hn
    exact h.set hs hb.1 ho
  | complete =>
    simp only [Batch.next] at hn
    cases he : s.x.err with
    | none =>
      obtain ⟨l, hl⟩ := complete_of_clean cfg he
      simp only [hl, if_true] at hn
      split_ifs at hn with hb
      cases hn
      exact h.commit hs hb he l
    | some e =>
      simp only [Ex.complete, he, reduceCtorEq, if_false] at hn
      split_ifs at hn with hb
      cases hn
      exact h.rollBack hb
  | abort =>
    obtain ⟨hb, ⟨⟩⟩ := ite_none_right_eq_some.mp hn
    exact h.rollBack hb
  | poll n =>
    obtain ⟨w, hw, hw'⟩ := bind_eq_some_iff.mp hn
    obtain rfl := some.inj hw'
    exact h.poll hw

end

theorem Inv.of_idle (h : Idle s) : Inv cfg overhead bbs s := by
  refine ⟨fun w hw => ?_, ?_, ?_, fun _ => h.curEth, fun hb => ?_⟩
  · rw [h.live] at hw
    cases hw
  · rw [h.live]
    exact .nil
  · rw [outstanding, h.tail, Serial.dist_self]
    exact zero_le _
  · rw [h.before] at hb
    cases hb

/-- Giving up a batch restores what was before it; calls in order leave committed WQEs intact. -/
theorem intact_of_orderly (ram : Ram) {attr : SqAttr} (hc : Created cfg attr) :
    (∀ s, (system cfg ram).Reachable s → Undoable cfg s) ∧
      ∀ s, (system cfg ram).RunWith (Orderly cfg attr.ops) s → Intact cfg s := by
  obtain ⟨bbs, hs⟩ := hc.sized
  refine ⟨fun s h => undoable_of_reachable h, fun s h => ?_⟩
  have hinv : Inv cfg (sqOverhead attr) bbs s := h.invariant (fun s hi => .of_idle hi)
    fun s a t hp ho hn => hp.next hs (fun op hop hb => headSz_le hc.qpType hop hb) ho hn
  exact fun w hw => (hinv.live w hw).intact

instance orderlyDecidable (cfg : Cfg) (ops : Opcode → Bool) (s : Batch) (a : Call) :
    Decidable (Orderly cfg ops s a) := by
  cases a <;> unfold Orderly <;> infer_instance

end

def fourWrites : SqAttr where
  qpType := .rc
  underlay := false
  ops := fun op => op = .send ∨ op = .rdmaWrite
  maxSendWr := 4
  maxSendSge := 1
  maxInlineData := 0
  maxTsoHeader := none
  maxSqDescSz := 1024
  maxSendWqebb := 32768

theorem created_fourWrites : Created fourBlocks fourWrites := ⟨rfl, by decide +kernel⟩

def fresh : Batch :=
  ⟨⟨.empty 0, 0, 0, none, 0, false, 0, 0, 0, none, 0⟩, [], none, [], false, false, false⟩

theorem idle_fresh : Idle fresh := ⟨rfl, rfl, rfl, rfl⟩

def write (addr : UInt64) : List Call := [.build 0 {} (.rdmaWrite 1 addr), .set (.sge 1 4096 8)]

/-- A write is committed, and the batch behind it fails with a list of two SGEs. -/
def failingBatch : List Call :=
  .start :: write 64 ++ [.complete, .start, .build 0 {} .send,
    .set (.sgeList [⟨0, 8, 1⟩, ⟨8, 8, 1⟩])]

theorem intact_failingBatch : Created fourBlocks fourWrites ∧
    ∃ s, (system fourBlocks fun _ => 0).exec fresh failingBatch = some s ∧ s.live.length = 1 ∧
      s.x.err = some .enomem ∧ Intact fourBlocks s ∧ Undoable fourBlocks s := by
  obtain ⟨s, hs, horderly, hlen, herr⟩ := (system fourBlocks fun _ => 0).exists_runWith
    (Orderly fourBlocks fourWrites.ops) (fun s => s.live.length = 1 ∧ s.x.err = some .enomem)
    idle_fresh failingBatch (by decide +kernel) (by decide +kernel)
  obtain ⟨hundo, hintact⟩ := intact_of_orderly (fun _ => 0) created_fourWrites
  exact ⟨created_fourWrites, s, hs, hlen, herr, hintact s horderly, hundo s horderly.reachable⟩

def fullQueue : List Call :=
  .start :: write 64 ++ write 128 ++ write 192 ++ write 256 ++
    [.complete, .start, .build 0 {} (.rdmaWrite 1 512)]

/-- The builder finds no room and stores the remote address into the last write committed. -/
theorem not_intact_fullQueue : ∃ s, (system fourBlocks fun _ => 0).Reachable s ∧
    s.x.err = some .enomem ∧ s.live.length = 4 ∧ ¬ Intact fourBlocks s := by
  obtain ⟨s, -, h⟩ := (system fourBlocks fun _ => 0).exists_reachable
    (fun s => s.x.err = some .enomem ∧ s.live.length = 4 ∧ ¬ Intact fourBlocks s) idle_fresh
    fullQueue (by decide +kernel)
  exact ⟨s, h⟩

end Batch

end Fusa.Driver.Sq

import Fusa.Driver.WrFrame

/-! What the setters store: at most the data that the size of a WQE allows for. -/
namespace Fusa.Driver.Sq
open Bytes Nat

namespace Ex

section
variable {cfg : Cfg} {ram : Ram} {x x' : Ex} {p bbs overhead : ℕ} {m : Mem} {e : Errno}

structure Filled (cfg : Cfg) (bbs : ℕ) (x x' : Ex) : Prop extends Stored cfg bbs x x' where
  nreq : x'.nreq = x.nreq
  eth : x'.curEth = x.curEth
  post : x'.qp.curPost = x.qp.curPost
  setters : x'.curSettersCnt = x.curSettersCnt
  lo : 1 ≤ x'.curSize
  hi : 16 * x'.curSize ≤ 64 * bbs

variable {c o dseg size : ℕ} {m : Mem} {y : Ex} {s : Setter}

theorem dataSeg_kept {length lkey : UInt32} {addr : UInt64} (hc : c < cfg.qend)
    (hfit : o + 16 ≤ 64 * bbs) (hplace : dseg % cfg.qend = (c + o) % cfg.qend) :
    Kept cfg.qend c (64 * bbs) m (Bytes.put m dseg (dataSeg length lkey addr)) :=
  Kept.put hc (by rwa [length_dataSeg]) hplace

section
variable (hc : c < cfg.qend) (sgs : List Sge) (hfit : o + 16 * sgs.length ≤ 64 * bbs)
include hc sgs hfit

theorem sgeLoop_kept (hplace : dseg % cfg.qend = (c + o) % cfg.qend) :
    Kept cfg.qend c (64 * bbs) m (sgeLoop cfg sgs m dseg size).1 ∧
      size ≤ (sgeLoop cfg sgs m dseg size).2 ∧
      (sgeLoop cfg sgs m dseg size).2 ≤ size + sgs.length := by
  induction sgs generalizing m dseg size o with
  | nil => exact ⟨.refl, le_rfl, le_rfl⟩
  | cons sg sgs ih =>
    rw [List.length_cons] at hfit ⊢
    have hw := (cfg.wrapped_mod dseg).trans hplace
    simp only [sgeLoop]
    split
    · obtain ⟨hk, hlo, hhi⟩ := ih (by omega) hw
      exact ⟨hk, hlo, by omega⟩
    · obtain ⟨hk, hlo, hhi⟩ := ih (by omega) (place_add hw 16)
      exact ⟨(dataSeg_kept hc (by omega) hw).trans hk, by omega, by omega⟩

theorem sgeEthLoop_kept {offset : ℕ} (hplace : dseg % cfg.qend = (c + o) % cfg.qend) :
    Kept cfg.qend c (64 * bbs) m (sgeEthLoop cfg sgs offset m dseg size).1 ∧
      size ≤ (sgeEthLoop cfg sgs offset m dseg size).2 ∧
      (sgeEthLoop cfg sgs offset m dseg size).2 ≤ size + sgs.length := by
  induction sgs generalizing offset m dseg size o with
  | nil => exact ⟨.refl, le_rfl, le_rfl⟩
  | cons sg sgs ih =>
    rw [List.length_cons] at hfit ⊢
    have hw := (cfg.wrapped_mod dseg).trans hplace
    simp only [sgeEthLoop]
    split
    · obtain ⟨hk, hlo, hhi⟩ := ih (by omega) hplace
      exact ⟨hk, hlo, by omega⟩
    · obtain ⟨hk, hlo, hhi⟩ := ih (by omega) (place_add hw 16)
      exact ⟨(dataSeg_kept hc (by omega) hw).trans hk, by omega, by omega⟩

end

theorem bufLoop_kept (ram : Ram) (hc : c < cfg.qend) (bs : List DataBuf) (offset : ℕ) {wqe inl : ℕ}
    (hfit : o + cfg.maxInlineData ≤ 64 * bbs) (hring : 64 * bbs ≤ cfg.qend) (hle : wqe ≤ cfg.qend)
    (hplace : wqe % cfg.qend = (c + (o + inl)) % cfg.qend) :
    Kept cfg.qend c (64 * bbs) m (bufLoop cfg ram bs offset m wqe inl).1 ∧
      (inl ≤ cfg.maxInlineData → ∀ n ∈ (bufLoop cfg ram bs offset m wqe inl).2,
        n ≤ cfg.maxInlineData) := by
  induction bs generalizing offset m wqe inl with
  | nil => exact ⟨.refl, fun h n hn => by simpa [bufLoop, ← Option.mem_some.mp hn] using h⟩
  | cons b bs ih =>
    simp only [bufLoop]
    split
    · exact ⟨.refl, fun _ n hn => by cases hn⟩
    · have hstep : cfg.advance wqe (b.length - offset) % cfg.qend =
          (c + (o + (inl + (b.length - offset)))) % cfg.qend := by
        rw [cfg.advance_mod, ← add_assoc o]
        exact place_add hplace _
      obtain ⟨hk, hn⟩ := ih 0 (cfg.advance_le hle (by omega)) hstep
      refine ⟨Kept.trans (Kept.putWrap hc ?_ hle hplace) hk, fun _ => hn (by omega)⟩
      rw [length_load]
      omega

theorem filled (ha : Aimed cfg overhead x) (hm : Stored cfg bbs x y) {k : ℕ}
    (hfit : overhead + 16 * k ≤ 64 * bbs) (hlo : x.curSize ≤ y.curSize)
    (hhi : y.curSize ≤ x.curSize + k) (hn : y.nreq = x.nreq := by rfl)
    (he : y.curEth = x.curEth := by rfl) (hpost : y.qp.curPost = x.qp.curPost := by rfl)
    (hc : y.curSettersCnt = x.curSettersCnt := by rfl) : Filled cfg bbs x y := by
  have := ha.pos
  have := ha.le
  exact ⟨hm, hn, he, hpost, hc, by omega, by omega⟩

theorem filled_fail (hs : Sized cfg overhead bbs) (ha : Aimed cfg overhead x) :
    Filled cfg bbs x (x.fail e) := by
  have := hs.inl
  exact filled ha stored_fail (k := 0) (by omega) le_rfl le_rfl

section data
variable (hs : Sized cfg overhead bbs) (hp : x.curCtrl = cfg.slot p) (ha : Aimed cfg overhead x)
include hs hp ha

theorem setSge_filled (lkey : UInt32) (addr : UInt64) (length : UInt32) :
    Filled cfg bbs x (setSge lkey addr length x) := by
  have hslot := cfg.slot_le p
  have hinl := hs.inl
  have hu := hs.units
  have hle := ha.le
  unfold setSge
  split
  · exact filled ha ⟨.refl, rfl, rfl, id⟩ (k := 0) (by omega) le_rfl le_rfl
  · exact filled ha ⟨dataSeg_kept (by omega) (by omega) ha.place, rfl, rfl, id⟩ (k := 1)
      (by omega) (le_succ _) le_rfl

theorem setSgeList_filled (sgs : List Sge) : Filled cfg bbs x (setSgeList cfg sgs x) := by
  have hslot := cfg.slot_le p
  have hgs := hs.gs
  have hle := ha.le
  unfold setSgeList
  split
  · exact filled_fail hs ha
  · have hfit : 16 * x.curSize + 16 * sgs.length ≤ 64 * bbs := by omega
    obtain ⟨hk, hlo, hhi⟩ := sgeLoop_kept (by omega) sgs (m := x.qp.mem) hfit ha.place
    exact filled ha ⟨hk, rfl, rfl, id⟩ (k := sgs.length) (by omega) hlo hhi

theorem inlineCount_kept (hm : Kept cfg.qend x.curCtrl (64 * bbs) x.qp.mem m) (n : ℕ) :
    Kept cfg.qend x.curCtrl (64 * bbs) x.qp.mem (Bytes.put m x.curData (be32 (inlineCount n))) := by
  have hslot := cfg.slot_le p
  have hinl := hs.inl
  have hle := ha.le
  refine hm.trans (Kept.put (by omega) ?_ ha.place)
  rw [length_be32]
  omega

theorem setInlineData_filled (addr : UInt64) (length : ℕ) :
    Filled cfg bbs x (setInlineData cfg ram addr length x) := by
  have hslot := cfg.slot_le p
  have hinl := hs.inl
  have hu := hs.units
  have hle := ha.le
  have hq := cfg.qend_units
  have hlt := ha.lt
  have hdu := ha.units
  unfold setInlineData
  split
  · exact filled_fail hs ha
  · split
    · exact filled ha ⟨.refl, rfl, rfl, id⟩ (k := 0) (by omega) le_rfl le_rfl
    · have hdata : Kept cfg.qend x.curCtrl (64 * bbs) x.qp.mem
          (putWrap x.qp.mem cfg.qend (x.curData + 4) (load ram addr length)) := by
        refine Kept.putWrap (by omega) ?_ (by omega) (place_add ha.place 4)
        rw [length_load]
        omega
      refine filled ha ⟨inlineCount_kept hs hp ha hdata length, rfl, rfl, id⟩
        (k := inlineUnits length) ?_ (le_add_right _ _) le_rfl
      unfold inlineUnits
      omega

theorem gatherInline_filled (e : Errno) (bs : List DataBuf) (q : SgCopyPtr) :
    Filled cfg bbs x (gatherInline cfg ram e bs q x).1 := by
  have hslot := cfg.slot_le p
  have hinl := hs.inl
  have hu := hs.units
  have hle := ha.le
  have hq := cfg.qend_units
  have hlt := ha.lt
  have hdu := ha.units
  have hring : 64 * bbs ≤ cfg.qend := mul_le_mul_left 64 hs.le
  obtain ⟨hk, hn⟩ := bufLoop_kept ram (by omega) (bs.drop q.index) q.offset (m := x.qp.mem)
    (by omega) hring (by omega) (place_add (place_add ha.place 4) 0)
  unfold gatherInline
  cases hres : bufLoop cfg ram (bs.drop q.index) q.offset x.qp.mem (x.curData + 4) 0 with
  | mk m' inl =>
    rw [hres] at hk hn
    cases inl with
    | none =>
      exact filled ha ((stored_setMem hk).trans stored_fail) (k := 0) (by omega) le_rfl
        le_rfl
    | some n =>
      have hn' := hn (zero_le _) n rfl
      simp only
      split
      · exact filled ha ⟨hk, rfl, rfl, id⟩ (k := 0) (by omega) le_rfl le_rfl
      · refine filled ha ⟨inlineCount_kept hs hp ha hk n, rfl, rfl, id⟩
          (k := inlineUnits n) ?_ (le_add_right _ _) le_rfl
        unfold inlineUnits
        omega

end data

theorem header_spec (ram : Ram) (hp : x.curCtrl = cfg.slot p) (hbb : 1 ≤ bbs)
    (heth : ∀ eseg, x.curEth = some eseg → eseg = x.curCtrl + 16) (bs : List DataBuf) :
    ∃ m, Kept cfg.qend x.curCtrl (64 * bbs) x.qp.mem m ∧
      ((∃ e, header cfg ram bs x = .error ((x.setMem m).fail e)) ∨
        ∃ q, header cfg ram bs x = .ok (x.setMem m, q)) := by
  have hslot := cfg.slot_le p
  have hsize : cfg.ethMinInlineSize ≤ 18 := by
    rcases cfg.ethMinInlineSize_eq with h | h <;> omega
  cases he : x.curEth with
  | none =>
    simp only [header, he]
    exact ⟨_, .refl, .inr ⟨_, rfl⟩⟩
  | some eseg =>
    obtain rfl := heth eseg he
    have hkept {m' : Mem}
        (hout : ∀ i, i < x.curCtrl + 16 + 12 ∨ x.curCtrl + 16 + 32 ≤ i → m' i = x.qp.mem i) :
        Kept cfg.qend x.curCtrl (64 * bbs) x.qp.mem m' :=
      Kept.of_outside (by omega) (by omega : 28 + 20 ≤ 64 * bbs) rfl fun i hi => hout i (by omega)
    simp only [header, he]
    cases hres : copyEthInlineHeaders ram cfg.ethMinInlineSize bs x.qp.mem (x.curCtrl + 16) with
    | error r =>
      exact ⟨_, hkept fun i hi => (copyEthInlineHeaders_outside hsize hi).2 _ _ hres, .inl ⟨_, rfl⟩⟩
    | ok r =>
      exact ⟨_, hkept fun i hi => (copyEthInlineHeaders_outside hsize hi).1 _ _ hres, .inr ⟨_, rfl⟩⟩

/-- A setter has returned: the WQE is complete, or its setter is counted. -/
structure Done (cfg : Cfg) (bbs : ℕ) (x x' : Ex) : Prop extends Stored cfg bbs x x' where
  nreq : x'.nreq = x.nreq
  eth : x'.curEth = x.curEth
  lo : 1 ≤ x'.curSize
  hi : 16 * x'.curSize ≤ 64 * bbs
  post : (x'.qp.curPost = x.qp.curPost ∧
      (cfg.qpType.twoSetters = true → x'.curSettersCnt = x.curSettersCnt + 1)) ∨
    ((cfg.qpType.twoSetters = true → x.curSettersCnt = 1) ∧
      ∃ k, 1 ≤ k ∧ k ≤ bbs ∧ x'.qp.curPost = x.qp.curPost + k)

section
variable (h : Filled cfg bbs x y)
include h

theorem Filled.finalize (hp : x.curCtrl = cfg.slot p)
    (h2 : cfg.qpType.twoSetters = true → x.curSettersCnt = 1) :
    Done cfg bbs x (commonWqeFinalize cfg y) := by
  have hlo := h.lo
  have hhi := h.hi
  refine ⟨h.toStored.trans (stored_finalize (h.ctrl.trans hp) (by omega)), h.nreq, h.eth, hlo, hhi,
    .inr ⟨h2, (y.curSize + 3) / 4, by omega, by omega, ?_⟩⟩
  rw [← h.post]
  rfl

theorem Filled.left (h2 : cfg.qpType.twoSetters = false) : Done cfg bbs x y :=
  ⟨h.toStored, h.nreq, h.eth, h.lo, h.hi, .inl ⟨h.post, fun ht => by simp [h2] at ht⟩⟩

theorem Filled.setterEnd (hp : x.curCtrl = cfg.slot p) : Done cfg bbs x (setterEnd cfg y) := by
  unfold Ex.setterEnd
  split_ifs with h2 h1
  · exact h.finalize hp fun _ => h.setters ▸ h1
  · exact ⟨⟨h.mem, h.ctrl, h.wqeHead, h.err⟩, h.nreq, h.eth, h.lo, h.hi,
      .inl ⟨h.post, fun _ => congrArg (· + 1) h.setters⟩⟩
  · exact h.finalize hp fun ht => absurd ht h2

end

theorem Filled.of_setMem (hk : Kept cfg.qend x.curCtrl (64 * bbs) x.qp.mem m)
    (h : Filled cfg bbs (x.setMem m) y) : Filled cfg bbs x y :=
  ⟨(stored_setMem hk).trans h.toStored, h.nreq, h.eth, h.post, h.setters, h.lo, h.hi⟩

theorem setCore_addr (hp : x.curCtrl = cfg.slot p) (hbb : 1 ≤ bbs) (hs : s.isAddr = true) :
    Stored cfg bbs x (setCore cfg ram s x) ∧ ∃ m, setCore cfg ram s x = x.setMem m := by
  cases s with
  | udAddr ah qpn qkey =>
    refine ⟨stored_setMem ?_, _, rfl⟩
    rw [hp]
    have hav : Kept cfg.qend (cfg.slot p) (64 * bbs) x.qp.mem
        (Bytes.put x.qp.mem (cfg.slot p + 16) ah.av) := kept_ctrl hbb (by rw [ah.length_av])
    exact (hav.trans (kept_ctrl (o := 24) hbb (by simp))).trans (kept_ctrl hbb (by simp))
  | xrcSrqn srqn =>
    refine ⟨stored_setMem ?_, _, rfl⟩
    rw [hp]
    exact kept_ctrl hbb (by simp)
  | dcAddr ah dctn key =>
    refine ⟨stored_setMem ?_, _, rfl⟩
    rw [hp]
    refine kept_ctrl hbb ?_
    simp [dcAv, ah.length_av]
  | sge | sgeList | inlineData | inlineDataList => cases hs

section
variable (hs : Sized cfg overhead bbs) (hp : x.curCtrl = cfg.slot p) (ha : Aimed cfg overhead x)
include hs hp ha

theorem setCore_data (hd : s.isAddr = false) : Filled cfg bbs x (setCore cfg ram s x) := by
  cases s with
  | sge lkey addr length => exact setSge_filled hs hp ha lkey addr length
  | sgeList sgs => exact setSgeList_filled hs hp ha sgs
  | inlineData addr length => exact setInlineData_filled hs hp ha addr length
  | inlineDataList bs => exact gatherInline_filled hs hp ha .enomem bs ⟨0, 0⟩
  | udAddr | xrcSrqn | dcAddr => cases hd

theorem setEth_data (heth : ∀ eseg, x.curEth = some eseg → eseg = x.curCtrl + 16)
    (h2 : cfg.qpType.twoSetters = false) (hd : s.isAddr = false) :
    Done cfg bbs x (setEth cfg ram s x) := by
  have hslot := cfg.slot_le p
  have hgs := hs.gs
  have hle := ha.le
  have hne : cfg.qpType.twoSetters = true → x.curSettersCnt = 1 := fun h => by simp [h2] at h
  -- behind the header the setter goes on with another queue, or gives up
  have hhead (bs : List DataBuf) := header_spec ram hp hs.bbs_pos heth bs
  have hgive {m : Mem} {e : Errno} (hk : Kept cfg.qend x.curCtrl (64 * bbs) x.qp.mem m) :
      Done cfg bbs x ((x.setMem m).fail e) :=
    ((filled_fail hs (x := x.setMem m) ha.congr).of_setMem hk).left h2
  cases s with
  | sge lkey addr length =>
    obtain ⟨m, hk, ⟨e, hh⟩ | ⟨q, hh⟩⟩ := hhead [⟨addr, length.toNat⟩] <;>
      simp only [setEth, setSgeEth, hh]
    · exact hgive hk
    · refine (Filled.of_setMem hk ?_).finalize hp hne
      exact setSge_filled hs (x := x.setMem m) hp ha.congr _ _ _
  | sgeList sgs =>
    simp only [setEth, setSgeListEth]
    split
    · exact (filled_fail hs ha).left h2
    · obtain ⟨m, hk, ⟨e, hh⟩ | ⟨q, hh⟩⟩ := hhead (sgs.map Sge.buf) <;> simp only [hh]
      · exact hgive hk
      · have hlen : (sgs.drop q.index).length ≤ cfg.maxGs := by
          rw [List.length_drop]
          omega
        have hfit : 16 * x.curSize + 16 * (sgs.drop q.index).length ≤ 64 * bbs := by omega
        obtain ⟨hk', hlo, hhi⟩ := sgeEthLoop_kept (by omega) (sgs.drop q.index) (m := m) hfit
          ha.place
        have hf := filled (y := { x.setMem _ with curSize := _ }) ha
          ⟨hk.trans hk', rfl, rfl, id⟩ (by omega) hlo hhi
        exact hf.finalize hp hne
  | inlineData addr length =>
    obtain ⟨m, hk, ⟨e, hh⟩ | ⟨q, hh⟩⟩ := hhead [⟨addr, length⟩] <;>
      simp only [setEth, setInlineDataEth, hh]
    · exact hgive hk
    · refine (Filled.of_setMem hk ?_).finalize hp hne
      exact setInlineData_filled hs (x := x.setMem m) hp ha.congr _ _
  | inlineDataList bs =>
    obtain ⟨m, hk, ⟨e, hh⟩ | ⟨q, hh⟩⟩ := hhead bs <;> simp only [setEth, setInlineDataListEth, hh]
    · exact hgive hk
    · have hf : Filled cfg bbs x (gatherInline cfg ram .einval bs q (x.setMem m)).1 :=
        .of_setMem hk (gatherInline_filled hs (x := x.setMem m) hp ha.congr _ _ _)
      split
      · exact hf.finalize hp hne
      · exact hf.left h2
  | udAddr | xrcSrqn | dcAddr => cases hd

end

theorem set_addr (ram : Ram) (hp : x.curCtrl = cfg.slot p) (hraw : cfg.qpType ≠ .rawPacket)
    (hlo : 1 ≤ x.curSize) (hhi : 16 * x.curSize ≤ 64 * bbs) (hs : s.isAddr = true) :
    Done cfg bbs x (x.set cfg ram s) ∧ (x.set cfg ram s).curData = x.curData ∧
      (x.set cfg ram s).curSize = x.curSize := by
  obtain ⟨hst, m, hm⟩ : Stored cfg bbs x (setCore cfg ram s x) ∧
      ∃ m, setCore cfg ram s x = x.setMem m := setCore_addr hp (by omega) hs
  rw [hm] at hst
  rw [Ex.set, if_neg hraw, hm]
  have hf : Filled cfg bbs x (x.setMem m) := ⟨hst, rfl, rfl, rfl, rfl, hlo, hhi⟩
  refine ⟨hf.setterEnd hp, ?_⟩
  unfold Ex.setterEnd
  split_ifs <;> exact ⟨rfl, rfl⟩

theorem set_data (hs : Sized cfg overhead bbs) (hp : x.curCtrl = cfg.slot p)
    (ha : Aimed cfg overhead x)
    (heth : cfg.qpType = .rawPacket → ∀ eseg, x.curEth = some eseg → eseg = x.curCtrl + 16)
    (hd : s.isAddr = false) : Done cfg bbs x (x.set cfg ram s) := by
  unfold Ex.set
  split
  · rename_i hraw
    exact setEth_data hs hp ha (heth hraw) (hraw ▸ rfl) hd
  · exact (setCore_data hs hp ha hd).setterEnd hp

end

end Ex

end Fusa.Driver.Sq

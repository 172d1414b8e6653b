import Fusa.Driver.Batch
import Fusa.Driver.RawPost

/-! Raw packets: whether what is sent is what the caller gave, for every way to post one. -/
namespace Fusa.Driver.Sq
open Bytes Transition List Nat

namespace Ex

/-- A raw packet that waits for its setter. -/
structure RawAim (cfg : Cfg) (x : Ex) : Prop where
  slot : ∃ p, x.curCtrl = cfg.slot p
  data : x.curData = x.curCtrl + cfg.rawHead
  size : 16 * x.curSize = cfg.rawHead
  eth : x.curEth = if cfg.ethMinInlineSize = 0 then none else some (x.curCtrl + 16)
  zero : slice (view x.qp.mem cfg.qend x.curCtrl) 28 2 = be16 0

/-- What the RNIC sends for the request that is being built. -/
def sent (cfg : Cfg) (ram : Ram) (inline : Bool) (x : Ex) : List UInt8 :=
  Sq.sent ram inline (view x.qp.mem cfg.qend x.curCtrl) x.curSize

section
variable {cfg : Cfg} {ram : Ram} {x y : Ex} {p : SgCopyPtr} {m : Mem} {list : List DataBuf}

theorem length_le_of_setInlineData {addr : UInt64} {length : ℕ}
    (h : (setInlineData cfg ram addr length x).err = none) : length ≤ cfg.maxInlineData := by
  unfold setInlineData at h
  split_ifs at h with hbig h0
  · exact absurd h fail_ne_none
  · omega
  · omega

theorem RawAim.header (ha : RawAim cfg x) (h : header cfg ram list x = .ok (x.setMem m, p)) :
    Headed cfg ram (view m cfg.qend x.curCtrl) list p := by
  obtain ⟨q, hq⟩ := ha.slot
  have hslot := cfg.slot_le q
  have heth := ha.eth
  have hmem {y : Ex} (hy : y = x.setMem m) : y.qp.mem = m := by rw [hy]; rfl
  unfold Ex.header at h
  split_ifs at heth with h0
  · rw [heth] at h
    obtain ⟨hx, rfl⟩ := Prod.mk.inj (Except.ok.inj h)
    rw [← hmem hx]
    exact headed_of_none h0 ha.zero
  · rw [heth] at h
    simp only at h
    split at h
    · cases h
    · rename_i m' sg hcopy
      obtain ⟨hx, rfl⟩ := Prod.mk.inj (Except.ok.inj h)
      rw [← hmem hx]
      exact headed_of_copy (by omega) hcopy

theorem finalize_view (hq : ∃ p, y.curCtrl = cfg.slot p) {k : ℕ} (hk : 12 ≤ k)
    (hlt : k < cfg.qend) : view (commonWqeFinalize cfg y).qp.mem cfg.qend y.curCtrl k =
      view y.qp.mem cfg.qend y.curCtrl k := by
  obtain ⟨q, hq⟩ := hq
  have hslot := cfg.slot_le q
  have hcell : (y.curCtrl + k) % cfg.qend = _ := add_mod_ring (by omega) hlt
  have hout : (y.curCtrl + k) % cfg.qend < y.curCtrl ∨
      y.curCtrl + 12 ≤ (y.curCtrl + k) % cfg.qend := by
    split at hcell <;> omega
  simp only [view]
  generalize (y.curCtrl + k) % cfg.qend = c at *
  simp only [commonWqeFinalize]
  split
  · rw [put_of_outside (by simp; omega), put_of_outside (by simp; omega)]
  · rw [put_of_outside (by simp; omega)]

/-- The loop of an SGE list stores its data segments one behind the other. -/
theorem sgeEthLoop_view {c : ℕ} (hc : c < cfg.qend) (sgs : List Sge) (m : Mem) (size : ℕ)
    {offset dseg o : ℕ}
    (hw : Within (sgs.map Sge.buf) offset) (hplace : dseg % cfg.qend = (c + o) % cfg.qend)
    (hu : dseg % 16 = 0) (hle : dseg ≤ cfg.qend)
    (hfit : o + 16 * (pieces sgs offset).length ≤ cfg.qend) :
    (sgeEthLoop cfg sgs offset m dseg size).2 = size + (pieces sgs offset).length ∧
      Agree cfg.qend (view (sgeEthLoop cfg sgs offset m dseg size).1 cfg.qend c)
        (Bytes.put (view m cfg.qend c) o (segBytes (pieces sgs offset))) := by
  induction sgs generalizing offset m dseg size o with
  | nil =>
    refine ⟨rfl, ?_⟩
    rw [pieces, segBytes, flatMap_nil, put_nil]
    exact fun _ _ => rfl
  | cons sg sgs ih =>
    have hzero : sg.length - UInt32.ofNat offset = 0 ↔ sg.length = 0 := by
      rcases hw with rfl | ⟨b, bs, heq, hlt⟩
      · simp
      · obtain ⟨rfl, -⟩ := cons.inj heq
        have hlen : offset < sg.length.toNat := hlt
        have hbig := sg.length.toNat_lt
        have hoff : (UInt32.ofNat offset).toNat = offset :=
          UInt32.toNat_ofNat_of_lt' (by simp [UInt32.size]; omega)
        constructor
        · intro h
          rw [sub_eq_zero] at h
          rw [h, hoff] at hlen
          omega
        · intro h
          rw [h] at hlen
          simp at hlen
    by_cases hz : sg.length = 0
    · have hw' : Within (sgs.map Sge.buf) offset := by
        rcases hw with rfl | ⟨b, bs, heq, hlt⟩
        · exact Or.inl rfl
        · obtain ⟨rfl, -⟩ := cons.inj heq
          simp [Sge.buf, hz] at hlt
      rw [pieces, if_pos hz] at hfit ⊢
      rw [sgeEthLoop, if_pos (hzero.mpr hz)]
      exact ih m size hw' hplace hu hle hfit
    · have hqu := cfg.qend_units
      have hpos := cfg.qend_pos
      have hwm := cfg.wrapped_mod dseg
      have hwu := cfg.wrapped_units hu
      have hwl := cfg.wrapped_lt hle
      rw [pieces, if_neg hz, length_cons] at hfit
      rw [pieces, if_neg hz, sgeEthLoop, if_neg (mt hzero.mp hz)]
      obtain ⟨hsize, hag⟩ := ih (Bytes.put m (cfg.wrapped dseg)
        (dataSeg (sg.length - UInt32.ofNat offset) sg.lkey (sg.addr + UInt64.ofNat offset)))
        (size + 1) (Or.inl rfl) (place_add (hwm.trans hplace) 16) (by omega) (by omega) (by omega)
      refine ⟨?_, ?_⟩
      · exact hsize.trans (by rw [length_cons]; omega)
      · rw [segBytes, flatMap_cons, put_append, length_dataSeg]
        exact hag.trans (view_put hc (by rw [length_dataSeg]; omega)
          (by rw [length_dataSeg]; omega) (hwm.trans hplace)).put

/-- The loop of an inline list stores its bytes one behind the other. -/
theorem bufLoop_view {c : ℕ} (hc : c < cfg.qend) (bs : List DataBuf) {offset wqe inl n o : ℕ}
    {m' : Mem} (hw : Within bs offset) (h : bufLoop cfg ram bs offset m wqe inl = (m', some n))
    (hplace : wqe % cfg.qend = (c + o) % cfg.qend) (hle : wqe ≤ cfg.qend)
    (hfit : o + (cfg.maxInlineData - inl) ≤ cfg.qend) (hinl : inl ≤ cfg.maxInlineData) :
    n = inl + ((cat ram bs).drop offset).length ∧ n ≤ cfg.maxInlineData ∧
      Agree cfg.qend (view m' cfg.qend c)
        (Bytes.put (view m cfg.qend c) o ((cat ram bs).drop offset)) := by
  induction bs generalizing offset m wqe inl o with
  | nil =>
    cases h
    refine ⟨by simp, hinl, ?_⟩
    rw [cat_nil, drop_nil, put_nil]
    exact fun _ _ => rfl
  | cons b bs ih =>
    have hoff : offset ≤ b.length := by
      rcases hw with rfl | ⟨b', bs', heq, hlt⟩
      · exact zero_le _
      · obtain ⟨rfl, -⟩ := cons.inj heq
        exact hlt.le
    have hdrop : (cat ram (b :: bs)).drop offset =
        load ram (b.addr + UInt64.ofNat offset) (b.length - offset) ++ cat ram bs := by
      rw [cat_cons, drop_append_of_le_length (by simpa using hoff), load_drop _ hoff]
    simp only [bufLoop] at h
    split_ifs at h with hbig
    · cases h
    · have hstep : cfg.advance wqe (b.length - offset) % cfg.qend =
          (c + (o + (b.length - offset))) % cfg.qend := by
        rw [cfg.advance_mod]
        exact place_add hplace _
      obtain ⟨hn, hmax, hag⟩ := ih (Or.inl rfl) h hstep (cfg.advance_le hle (by omega)) (by omega)
        (by omega)
      rw [drop_zero] at hn hag
      refine ⟨?_, hmax, ?_⟩
      · rw [hdrop, length_append, length_load]
        omega
      · rw [hdrop, put_append, length_load]
        exact hag.trans (view_putWrap hc (by rw [length_load]; omega) hle hplace).put

variable {overhead bbs : ℕ}

def ethSeg (flags : SendFlags) (m : Mem) (eseg : ℕ) : Mem :=
  let m := Bytes.put m eseg (List.replicate 32 0)
  if flags.ipCsum then Bytes.put m (eseg + 4) [0xc0] else m

variable {flags : SendFlags} {sgs : List Sge}

theorem sendWrSendEth_ok (hok : ¬ (flags.ipCsum ∧ ¬ cfg.csumRawOverEth)) :
    sendWrSendEth cfg flags x = { x.setMem (ethSeg flags x.qp.mem (x.curCtrl + 16)) with
      curEth := if cfg.ethMinInlineSize = 0 then x.curEth else some (x.curCtrl + 16)
      curData := x.curCtrl + 16 + (16 + cfg.ethMinInlineSize) / 16 * 16
      curSize := (16 + (16 + cfg.ethMinInlineSize) / 16 * 16) / 16
      nreq := x.nreq + 1 } := by
  unfold sendWrSendEth ethSeg
  simp only [if_neg hok]
  cases flags.ipCsum with
  | true => rfl
  | false => rfl

theorem err_sendWrSendEth (h : (sendWrSendEth cfg flags x).err = none) :
    x.err = none ∧ ¬ (flags.ipCsum ∧ ¬ cfg.csumRawOverEth) := by
  by_cases hbad : flags.ipCsum ∧ ¬ cfg.csumRawOverEth
  · simp only [sendWrSendEth, if_pos hbad] at h
    exact absurd h fail_ne_none
  · rw [sendWrSendEth_ok hbad] at h
    exact ⟨h, hbad⟩

theorem ethSeg_zero {ctrl : ℕ} (hc : ctrl + 64 ≤ cfg.qend) (flags : SendFlags) (m : Mem) :
    slice (view (ethSeg flags m (ctrl + 16)) cfg.qend ctrl) 28 2 = be16 0 := by
  have hzero : ∀ k < 2, Bytes.put m (ctrl + 16) (List.replicate 32 0) (ctrl + (28 + k)) = 0 := by
    intro k hk
    rw [show ctrl + (28 + k) = ctrl + 16 + (12 + k) by omega,
      put_add (by rw [length_replicate]; omega), getElem_replicate]
  have hcell : ∀ k < 2, view (ethSeg flags m (ctrl + 16)) cfg.qend ctrl (28 + k) = 0 := by
    intro k hk
    rw [view, mod_eq_of_lt (by omega), ethSeg]
    split
    · rw [put_of_outside (.inr (by simp; omega))]
      exact hzero k hk
    · exact hzero k hk
  have hslice : slice (view (ethSeg flags m (ctrl + 16)) cfg.qend ctrl) 28 2 =
      slice (fun _ => 0) 0 2 := slice_congr fun k hk => hcell k hk
  exact hslice

theorem build_rawAim {wrId : UInt64} (hraw : cfg.qpType = .rawPacket)
    (h0 : cfg.ethMinInlineSize = 0 → x.curEth = none)
    (herr : (x.build cfg wrId flags .send).err = none) :
    RawAim cfg (x.build cfg wrId flags .send) := by
  have hslot := cfg.slot_le x.qp.curPost
  obtain ⟨-, hu, h32, h48⟩ := cfg.rawHead_spec
  have hhead : 16 + (16 + cfg.ethMinInlineSize) / 16 * 16 = cfg.rawHead := rfl
  simp only [build, segments, if_pos hraw] at herr ⊢
  obtain ⟨hinit, hok⟩ := err_sendWrSendEth herr
  have hroom : ¬ wqOverflow cfg x.qp x.nreq = true := by
    intro hov
    rw [commonWqeInit, if_pos hov] at hinit
    exact fail_ne_none hinit
  have hctrl : (commonWqeInit cfg wrId flags Builder.send.opcode x).curCtrl =
      cfg.slot x.qp.curPost := by
    rw [commonWqeInit, if_neg hroom]
  have heth : (commonWqeInit cfg wrId flags Builder.send.opcode x).curEth = x.curEth := by
    rw [commonWqeInit, if_neg hroom]
  rw [sendWrSendEth_ok hok]
  refine ⟨⟨x.qp.curPost, hctrl⟩, ?_, ?_, ?_, ?_⟩
  · simp only [setMem]
    omega
  · simp only
    omega
  · simp only [setMem, heth]
    split
    · rename_i he
      exact h0 he
    · rfl
  · exact ethSeg_zero (by rw [hctrl]; exact hslot) flags _

theorem RawAim.sent_pointed (ha : RawAim cfg x)
    (hh : Headed cfg ram (view m cfg.qend x.curCtrl) (sgs.map Sge.buf) p)
    (hc : y.curCtrl = x.curCtrl)
    (hsize : y.curSize = x.curSize + (pieces (sgs.drop p.index) p.offset).length)
    (hfit : 16 * y.curSize ≤ cfg.qend)
    (hv : Agree cfg.qend (view y.qp.mem cfg.qend x.curCtrl) (Bytes.put (view m cfg.qend x.curCtrl)
      cfg.rawHead (segBytes (pieces (sgs.drop p.index) p.offset)))) :
    (commonWqeFinalize cfg y).sent cfg ram false = cat ram (sgs.map Sge.buf) := by
  have hx := ha.size
  change Sq.sent _ _ (view _ _ y.curCtrl) y.curSize = _
  refine hh.sent_pointed (by omega) hfit fun k h12 hk => ?_
  rw [finalize_view (by rw [hc]; exact ha.slot) h12 hk, hc]
  exact hv k hk

theorem RawAim.sent_inlined (ha : RawAim cfg x) (hs : Sized cfg overhead bbs)
    (hle : cfg.rawHead ≤ overhead) {list : List DataBuf} {m' : Mem} {n : ℕ}
    (hh : Headed cfg ram (view m cfg.qend x.curCtrl) list p) (hc : y.curCtrl = x.curCtrl)
    (hn : (rest ram list p).length = n) (hmax : n ≤ cfg.maxInlineData)
    (hag : Agree cfg.qend (view m' cfg.qend x.curCtrl) (Bytes.put (view m cfg.qend x.curCtrl)
      (cfg.rawHead + 4) (rest ram list p)))
    (hmem : y.qp.mem = if n = 0 then m' else Bytes.put m' x.curData (be32 (inlineCount n)))
    (hsize : y.curSize = x.curSize + if n = 0 then 0 else inlineUnits n) :
    (commonWqeFinalize cfg y).sent cfg ram true = cat ram list := by
  obtain ⟨q, hq⟩ := ha.slot
  have hslot := cfg.slot_le q
  obtain ⟨-, -, h32, h48⟩ := cfg.rawHead_spec
  have hx := ha.size
  have hd := ha.data
  have hinl := hs.inl
  have hbbs := hs.le
  have hend : cfg.qend = 64 * cfg.wqeCnt := rfl
  have h31 := cfg.maxInlineData_lt
  change Sq.sent _ _ (view _ _ y.curCtrl) y.curSize = _
  refine hh.sent_inlined (by omega : n < 2 ^ 31) hn ?_ (by omega : _ ≤ cfg.qend)
    fun k h12 hk => ?_
  · rw [hsize, inlineUnits]
    split <;> omega
  · rw [finalize_view (by rw [hc]; exact ha.slot) h12 hk, hc, hmem]
    split
    · rename_i h0
      rw [hag k hk, eq_nil_of_length_eq_zero (hn.trans h0), put_nil]
    · have hput : Agree cfg.qend (view (Bytes.put m' x.curData (be32 (inlineCount n))) cfg.qend
          x.curCtrl) (Bytes.put (view m' cfg.qend x.curCtrl) cfg.rawHead
            (be32 (inlineCount n))) :=
        view_put (by omega) (by simp; omega) (by simp; omega) (by rw [hd])
      exact (hput k hk).trans (put_congr (hag k hk))

theorem setSgeListEth_ok (herr : (setSgeListEth cfg ram sgs x).err = none) :
    sgs.length ≤ cfg.maxGs ∧ ∃ m p, header cfg ram (sgs.map Sge.buf) x = .ok (x.setMem m, p) ∧
      setSgeListEth cfg ram sgs x = commonWqeFinalize cfg
        { x.setMem (sgeEthLoop cfg (sgs.drop p.index) p.offset m x.curData x.curSize).1 with
          curSize := (sgeEthLoop cfg (sgs.drop p.index) p.offset m x.curData x.curSize).2 } := by
  by_cases hnum : cfg.maxGs < sgs.length
  · rw [setSgeListEth, if_pos hnum] at herr
    exact absurd herr fail_ne_none
  · rw [setSgeListEth, if_neg hnum] at herr ⊢
    obtain ⟨m, e, hh⟩ | ⟨m, p, hh⟩ := header_cases cfg ram (sgs.map Sge.buf) x <;> rw [hh] at herr ⊢
    · exact absurd herr fail_ne_none
    · exact ⟨Nat.le_of_not_lt hnum, m, p, rfl, rfl⟩

theorem setInlineDataListEth_ok {bs : List DataBuf}
    (herr : (setInlineDataListEth cfg ram bs x).err = none) :
    ∃ m p m' n, header cfg ram bs x = .ok (x.setMem m, p) ∧
      bufLoop cfg ram (bs.drop p.index) p.offset m (x.curData + 4) 0 = (m', some n) ∧
      setInlineDataListEth cfg ram bs x = commonWqeFinalize cfg
        { x.setMem (if n = 0 then m' else Bytes.put m' x.curData (be32 (inlineCount n))) with
          inlWqe := true
          curSize := x.curSize + if n = 0 then 0 else inlineUnits n } := by
  unfold setInlineDataListEth at herr ⊢
  obtain ⟨m, e, hh⟩ | ⟨m, p, hh⟩ := header_cases cfg ram bs x <;> simp only [hh] at herr ⊢
  · exact absurd herr fail_ne_none
  · rcases hl : bufLoop cfg ram (bs.drop p.index) p.offset (x.setMem m).qp.mem
      ((x.setMem m).curData + 4) 0 with ⟨m', _ | n⟩
    · simp only [gatherInline, hl] at herr
      exact absurd herr fail_ne_none
    · refine ⟨m, p, m', n, rfl, hl, ?_⟩
      simp only [gatherInline, hl]
      by_cases h0 : n = 0
      · rw [if_pos h0, if_pos h0, if_pos h0]
        rfl
      · rw [if_neg h0, if_neg h0, if_neg h0]
        rfl

section sized
variable (ha : RawAim cfg x)
include ha

theorem sgeEthLoop_sent (hh : header cfg ram (sgs.map Sge.buf) x = .ok (x.setMem m, p))
    (hnum : cfg.rawHead + 16 * (sgs.drop p.index).length ≤ cfg.qend)
    (hy : y = { x.setMem (sgeEthLoop cfg (sgs.drop p.index) p.offset m x.curData x.curSize).1 with
      curSize := (sgeEthLoop cfg (sgs.drop p.index) p.offset m x.curData x.curSize).2 }) :
    (commonWqeFinalize cfg y).sent cfg ram false = cat ram (sgs.map Sge.buf) := by
  subst hy
  obtain ⟨q, hq⟩ := ha.slot
  have hslot := cfg.slot_le q
  have hu := cfg.slot_units q
  obtain ⟨-, hhu, h32, h48⟩ := cfg.rawHead_spec
  have hx := ha.size
  have hd := ha.data
  have hheaded := ha.header hh
  have hlen := length_pieces (sgs.drop p.index) p.offset
  have hlive := liveSges_le (sgs.drop p.index)
  have hw := hheaded.within
  rw [← map_drop] at hw
  have hplace : x.curData % cfg.qend = (x.curCtrl + cfg.rawHead) % cfg.qend := by rw [hd]
  obtain ⟨hsize, hag⟩ := sgeEthLoop_view (by omega) (sgs.drop p.index) m x.curSize hw hplace
    (by omega) (by omega) (by omega)
  have hfit : 16 * (sgeEthLoop cfg (sgs.drop p.index) p.offset m x.curData x.curSize).2 ≤
      cfg.qend := by
    rw [hsize]
    omega
  exact ha.sent_pointed hheaded rfl hsize hfit hag

variable (hs : Sized cfg overhead bbs) (hle : cfg.rawHead ≤ overhead)
include hs hle

theorem bufLoop_sent {bs : List DataBuf} {p : SgCopyPtr} {m m' : Mem} {n : ℕ}
    (hh : header cfg ram bs x = .ok (x.setMem m, p))
    (hl : bufLoop cfg ram (bs.drop p.index) p.offset m (x.curData + 4) 0 = (m', some n))
    (hy : y = { x.setMem (if n = 0 then m' else Bytes.put m' x.curData (be32 (inlineCount n))) with
      inlWqe := true
      curSize := x.curSize + if n = 0 then 0 else inlineUnits n }) :
    (commonWqeFinalize cfg y).sent cfg ram true = cat ram bs := by
  subst hy
  obtain ⟨q, hq⟩ := ha.slot
  have hslot := cfg.slot_le q
  obtain ⟨-, hhu, h32, h48⟩ := cfg.rawHead_spec
  have hinl := hs.inl
  have hbbs := hs.le
  have hd := ha.data
  have hend : cfg.qend = 64 * cfg.wqeCnt := rfl
  have hheaded := ha.header hh
  have hplace : (x.curData + 4) % cfg.qend = (x.curCtrl + (cfg.rawHead + 4)) % cfg.qend := by
    rw [hd, add_assoc]
  obtain ⟨hn, hmax, hag⟩ := bufLoop_view (by omega) (bs.drop p.index) hheaded.within hl hplace
    (by omega) (by omega) (zero_le _)
  rw [zero_add] at hn
  exact ha.sent_inlined hs hle hheaded rfl hn.symm hmax hag rfl rfl

theorem setSgeListEth_sent (herr : (setSgeListEth cfg ram sgs x).err = none) :
    (setSgeListEth cfg ram sgs x).sent cfg ram false = cat ram (sgs.map Sge.buf) := by
  obtain ⟨hnum, m, p, hh, heq⟩ := setSgeListEth_ok herr
  have hgs := hs.gs
  have hbbs := hs.le
  have hend : cfg.qend = 64 * cfg.wqeCnt := rfl
  have hfit : cfg.rawHead + 16 * (sgs.drop p.index).length ≤ cfg.qend := by
    rw [length_drop]
    omega
  rw [heq]
  exact sgeEthLoop_sent ha hh hfit rfl

theorem setInlineDataListEth_sent {bs : List DataBuf}
    (herr : (setInlineDataListEth cfg ram bs x).err = none) :
    (setInlineDataListEth cfg ram bs x).sent cfg ram true = cat ram bs := by
  obtain ⟨m, p, m', n, hh, hl, heq⟩ := setInlineDataListEth_ok herr
  rw [heq]
  exact bufLoop_sent ha hs hle hh hl rfl

end sized

end

end Ex

end Fusa.Driver.Sq

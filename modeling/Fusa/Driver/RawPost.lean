import Fusa.Driver.RawRead
import Fusa.Driver.WrFrame

/-! The raw packets of `_mlx5_post_send`: what is sent for a WQE is what the caller gave. -/
namespace Fusa.Driver.Sq
open Bytes List Nat

def Cfg.rawHead (cfg : Cfg) : ℕ := 16 + (16 + cfg.ethMinInlineSize) / 16 * 16

/-- The WQE has the inline header of the buffers, and their data is left from `p` on. -/
structure Headed (cfg : Cfg) (ram : Ram) (v : Mem) (list : List DataBuf) (p : SgCopyPtr) :
    Prop where
  size : slice v 28 2 = be16 (UInt16.ofNat cfg.ethMinInlineSize)
  bytes : slice v 30 cfg.ethMinInlineSize ++ rest ram list p = cat ram list
  within : Within (list.drop p.index) p.offset

section
variable {cfg : Cfg} {ram : Ram} {v v' : Mem} {list : List DataBuf} {p : SgCopyPtr} {size : ℕ}

theorem Cfg.rawHead_spec (cfg : Cfg) :
    30 + cfg.ethMinInlineSize ≤ cfg.rawHead ∧ cfg.rawHead % 16 = 0 ∧ 32 ≤ cfg.rawHead ∧
      cfg.rawHead ≤ 48 := by
  unfold Cfg.rawHead
  rcases cfg.ethMinInlineSize_eq with h | h <;> omega

theorem Headed.congr (h : Headed cfg ram v list p)
    (heq : ∀ k, 28 ≤ k → k < cfg.rawHead → v' k = v k) : Headed cfg ram v' list p := by
  obtain ⟨hle, -, h32, -⟩ := cfg.rawHead_spec
  have hsz : slice v' 28 2 = slice v 28 2 := slice_congr fun k hk => heq _ (by omega) (by omega)
  have hhd : slice v' 30 cfg.ethMinInlineSize = slice v 30 cfg.ethMinInlineSize :=
    slice_congr fun k hk => heq _ (by omega) (by omega)
  exact ⟨hsz.trans h.size, by rw [hhd]; exact h.bytes, h.within⟩

theorem headed_of_none (h0 : cfg.ethMinInlineSize = 0) (hs : slice v 28 2 = be16 0) :
    Headed cfg ram v list ⟨0, 0⟩ := by
  refine ⟨by rw [h0, hs]; rfl, ?_, Or.inl rfl⟩
  rw [h0]
  simp [rest, slice]

theorem headed_of_copy {m m' : Mem} {ctrl : ℕ} (hc : ctrl + 64 ≤ cfg.qend)
    (h : copyEthInlineHeaders ram cfg.ethMinInlineSize list m (ctrl + 16) = .ok (m', p)) :
    Headed cfg ram (view m' cfg.qend ctrl) list p := by
  have heth := cfg.ethMinInlineSize_eq
  obtain ⟨done, last, tail, copied, hs, hm, hp⟩ := copyEthInlineHeaders_ok heth h
  have hlen := hs.length_head
  have hview : ∀ a n, a + n ≤ 64 → slice (view m' cfg.qend ctrl) a n = slice m' (ctrl + a) n := by
    intro a n ha
    refine slice_congr fun k hk => ?_
    simp only [view]
    rw [mod_eq_of_lt (by omega), add_assoc]
  refine ⟨?_, ?_, hs.within hp⟩
  · rw [hview 28 2 (by omega), hm]
    exact slice_put_self
  · have hhead : slice (view m' cfg.qend ctrl) 30 cfg.ethMinInlineSize =
        cat ram done ++ load ram last.addr copied := by
      rw [hview 30 _ (by omega), hm, slice_put_of_outside (by simp)]
      nth_rewrite 1 [← hlen]
      exact slice_put_self
    rw [hhead, hp]
    exact hs.append_rest

theorem Headed.sent_pointed {sgs : List Sge} {e : ℕ} (h : Headed cfg ram v (sgs.map Sge.buf) p)
    (hsize : 16 * size = cfg.rawHead + 16 * (pieces (sgs.drop p.index) p.offset).length)
    (hfit : 16 * size ≤ e) (hv : ∀ k, 12 ≤ k → k < e →
      v' k = put v cfg.rawHead (segBytes (pieces (sgs.drop p.index) p.offset)) k) :
    sent ram false v' size = cat ram (sgs.map Sge.buf) := by
  obtain ⟨-, -, h32, -⟩ := cfg.rawHead_spec
  have h' : Headed cfg ram v' (sgs.map Sge.buf) p := by
    refine h.congr fun k h28 hk => ?_
    rw [hv k (by omega) (by omega)]
    exact put_of_outside (.inl hk)
  have hd : slice v' cfg.rawHead (16 * (pieces (sgs.drop p.index) p.offset).length) =
      segBytes (pieces (sgs.drop p.index) p.offset) := by
    rw [slice_congr fun k hk => hv (cfg.rawHead + k) (by omega) (by omega), ← length_segBytes]
    exact slice_put_self
  have hw := h.within
  have hb := h'.bytes
  rw [← map_drop] at hw
  rw [rest, ← map_drop] at hb
  rwa [Sq.sent_pointed cfg.ethMinInlineSize_eq h'.size rfl hsize hd, cat_pieces hw]

theorem Headed.sent_inlined {n e : ℕ} (h : Headed cfg ram v list p) (hn : n < 2 ^ 31)
    (hlen : (rest ram list p).length = n)
    (hsize : 16 * size = cfg.rawHead + 16 * (if n = 0 then 0 else (n + 4 + 15) / 16))
    (hfit : cfg.rawHead + 4 + n ≤ e) (hv : ∀ k, 12 ≤ k → k < e → v' k = if n = 0 then v k
      else put (put v (cfg.rawHead + 4) (rest ram list p)) cfg.rawHead (be32 (inlineCount n)) k) :
    sent ram true v' size = cat ram list := by
  obtain ⟨-, -, h32, -⟩ := cfg.rawHead_spec
  have h' : Headed cfg ram v' list p := by
    refine h.congr fun k h28 hk => ?_
    rw [hv k (by omega) (by omega)]
    split
    · rfl
    · rw [put_of_outside (.inl hk), put_of_outside (.inl (by omega))]
  have hcount : n ≠ 0 → slice v' cfg.rawHead 4 = be32 (inlineCount n) := by
    intro h0
    rw [slice_congr fun k hk => (hv (cfg.rawHead + k) (by omega) (by omega)).trans (if_neg h0)]
    exact slice_put_self
  have hd : slice v' (cfg.rawHead + 4) n = rest ram list p := by
    by_cases h0 : n = 0
    · rw [eq_nil_of_length_eq_zero (hlen.trans h0), h0]
      rfl
    · rw [slice_congr fun k hk =>
          (hv (cfg.rawHead + 4 + k) (by omega) (by omega)).trans (if_neg h0),
        slice_put_of_outside (by simp), ← hlen]
      exact slice_put_self
  have hsent := Sq.sent_inlined ram cfg.ethMinInlineSize_eq h'.size rfl hn hsize hcount
  rw [hsent]
  exact (congrArg _ hd).trans h'.bytes

end

section
variable {cfg : Cfg} {ram : Ram} {qp : Qp} {nreq : ℕ} {l : Locals} {w : SendWr} {x y : Build}
  {overhead bbs : ℕ} {v : Mem}

structure RawOpen (cfg : Cfg) (ram : Ram) (qp : Qp) (w : SendWr) (x : Build) : Prop where
  aligned : Aligned cfg x
  ctrl : x.ctrl = cfg.slot qp.curPost
  size : 16 * x.size = cfg.rawHead
  room : x.seg + 16 ≤ cfg.qend
  headed : Headed cfg ram (view x.mem cfg.qend x.ctrl) (w.sgList.map Sge.buf) x.sg
  some : w.sgList ≠ []

theorem rawSegs_open (ho : w.opcode ≠ .tso)
    (h : rawSegs cfg ram w (start cfg qp l w) = .ok x) : RawOpen cfg ram qp w x := by
  obtain ⟨hs, -⟩ : Aligned cfg (start cfg qp l w) ∧ _ := start_aligned
  have hslot := cfg.slot_le qp.curPost
  obtain ⟨-, hu, h32, h48⟩ := cfg.rawHead_spec
  have hn : 16 + (16 + cfg.ethMinInlineSize) / 16 * 16 = cfg.rawHead := rfl
  simp only [rawSegs] at h
  split_ifs at h
  · unfold ethSegs at h
    split at h
    · cases h
    · rename_i m sg hcopy
      cases h
      refine ⟨?_, rfl, ?_, ?_, ?_, ?_⟩
      · refine hs.step (n := (16 + cfg.ethMinInlineSize) / 16) rfl ?_ ?_ ?_ <;>
        · simp only [Build.aim, Build.emit, start]
          omega
      iterate 2
        · simp only [Build.aim, Build.emit, start]
          omega
      · exact headed_of_copy hslot hcopy
      · intro hnil
        rw [hnil] at hcopy
        simp [copyEthInlineHeaders] at hcopy

theorem build_open (hraw : cfg.qpType = .rawPacket) (ho : w.opcode ≠ .tso)
    (h : build cfg ram qp l w = .ok y) :
    ∃ x, RawOpen cfg ram qp w x ∧ dataSegs cfg ram w x = .ok y := by
  unfold build at h
  cases hh : headerSegs cfg ram w (start cfg qp l w) with
  | error e =>
    rw [hh] at h
    cases h
  | ok x =>
    rw [hh] at h
    simp only [headerSegs, hraw] at hh
    exact ⟨x, rawSegs_open ho hh, h⟩

theorem liveSges_le (sgs : List Sge) : liveSges sgs ≤ sgs.length := countP_le_length

theorem RawOpen.sent_dataLoop (hx : RawOpen cfg ram qp w x) (hat : w.opcode.isAtomic = false)
    (h : dataLoop cfg w (w.sgList.drop x.sg.index) x = .ok y)
    (hfit : 16 * y.size ≤ cfg.qend) (hv : ∀ k, 12 ≤ k → k < cfg.qend →
      v k = view y.mem cfg.qend x.ctrl k) :
    sent ram false v y.size = cat ram (w.sgList.map Sge.buf) := by
  have hl := dataLoop_loaded h
  have hsize := hl.size
  have hopen := hx.size
  have hlen := length_pieces (w.sgList.drop x.sg.index) x.sg.offset
  refine hx.headed.sent_pointed (by omega) hfit fun k h12 hk => ?_
  rw [hv k h12 hk, hl.view hx.aligned hfit k hk, dataBytes_eq hat, hopen]

theorem RawOpen.sent_inline (hx : RawOpen cfg ram qp w x)
    (hs : Sized cfg overhead bbs) (hle : cfg.rawHead ≤ overhead)
    (h : setDataInlSeg cfg ram w x = .ok y) (hv : ∀ k, 12 ≤ k → k < cfg.qend →
      v k = view y.mem cfg.qend x.ctrl k) :
    sent ram true v y.size = cat ram (w.sgList.map Sge.buf) := by
  have hopen := hx.size
  have hroom := hx.room
  have hctrl := hx.aligned.ctrl
  have hplace := hx.aligned.place
  have hinl := hs.inl
  have hbbs := hs.le
  have hmax := cfg.maxInlineData_lt
  have hend : cfg.qend = 64 * cfg.wqeCnt := rfl
  have hw : Within ((w.sgList.drop x.sg.index).map Sge.buf) x.sg.offset := by
    rw [map_drop]
    exact hx.headed.within
  have hbytes : inlBytes ram (w.sgList.drop x.sg.index) x.sg.offset =
      rest ram (w.sgList.map Sge.buf) x.sg := by
    rw [inlBytes_eq hw, rest, map_drop]
  unfold setDataInlSeg at h
  cases hl : inlLoop cfg ram (w.sgList.drop x.sg.index) x.sg.offset x.mem (x.seg + 4) 0 with
  | error e => simp [hl] at h
  | ok r =>
    obtain ⟨m, n⟩ := r
    obtain ⟨hn, hnmax, hag⟩ := inlLoop_ok hl
    rw [hbytes, zero_add] at hn
    have hn' := hnmax (zero_le _)
    have hagree := hag x.ctrl (cfg.rawHead + 4) hctrl (by rw [hbytes]; omega) (by omega) (by
      rw [add_mod, hplace, ← add_mod, hopen, add_assoc])
    rw [hbytes] at hagree
    simp only [hl] at h
    split_ifs at h with h0
    · cases h
      have hnil : rest ram (w.sgList.map Sge.buf) x.sg = [] := eq_nil_of_length_eq_zero (by omega)
      refine hx.headed.sent_inlined (by omega : n < 2 ^ 31) hn.symm ?_ (by omega : _ ≤ cfg.qend)
        fun k h12 hk => ?_
      · simp only [h0, if_true]
        omega
      · rw [if_pos h0, hv k h12 hk, hagree k hk, hnil, put_nil]
    · cases h
      refine hx.headed.sent_inlined (by omega : n < 2 ^ 31) hn.symm ?_ (by omega : _ ≤ cfg.qend)
        fun k h12 hk => ?_
      · simp only [if_neg h0, align16]
        omega
      · have hcount : Agree cfg.qend (view (put m x.seg (be32 (inlineCount n))) cfg.qend x.ctrl)
            (put (view m cfg.qend x.ctrl) cfg.rawHead (be32 (inlineCount n))) :=
          view_put hctrl (by simp; omega) (by simp; omega) (by rw [hplace, hopen])
        rw [if_neg h0, hv k h12 hk]
        exact (hcount k hk).trans (put_congr (hagree k hk))

theorem postOne_sent (hraw : cfg.qpType = .rawPacket) (hs : Sized cfg overhead bbs)
    (hle : cfg.rawHead ≤ overhead) (hgs : cfg.qpStateMaxGs ≤ cfg.maxGs) (ho : w.opcode ≠ .tso)
    (hat : w.opcode.isAtomic = false) {r : Qp × Locals} (h : postOne cfg ram qp nreq l w = .ok r) :
    sent ram w.sendFlags.inline (view r.1.mem cfg.qend r.2.ctrl) r.2.size =
      cat ram (w.sgList.map Sge.buf) := by
  obtain ⟨hchk, y, hb, rfl⟩ := postOne_ok.mp h
  obtain ⟨x, hx, hd⟩ := build_open hraw ho hb
  have hslot := cfg.slot_le qp.curPost
  have hctrl : y.ctrl = x.ctrl := dataSegs_ctrl hd
  have hxc := hx.ctrl
  have hsges : w.sgList.length ≤ cfg.qpStateMaxGs := by
    unfold check at hchk
    split_ifs at hchk
    omega
  have hv : ∀ k, 12 ≤ k → k < cfg.qend →
      view (finish cfg qp nreq w y).mem cfg.qend y.ctrl k = view y.mem cfg.qend x.ctrl k := by
    intro k hk hlt
    rw [← hctrl]
    exact ctrlEnd_view (by omega) hk hlt
  unfold dataSegs at hd
  split_ifs at hd with hin
  · rw [hin.1]
    exact hx.sent_inline hs hle hd hv
  · have hfalse : w.sendFlags.inline = false := by
      cases hf : w.sendFlags.inline with
      | false => rfl
      | true => exact absurd ⟨hf, hx.some⟩ hin
    rw [hfalse]
    refine hx.sent_dataLoop hat hd ?_ hv
    have hsize := (dataLoop_loaded hd).size
    have hlive := liveSges_le (w.sgList.drop x.sg.index)
    rw [length_drop] at hlive
    have hopen := hx.size
    have hgs' := hs.gs
    have hbbs := hs.le
    have hend : cfg.qend = 64 * cfg.wqeCnt := rfl
    omega

end

end Fusa.Driver.Sq

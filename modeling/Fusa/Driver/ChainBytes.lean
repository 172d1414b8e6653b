import Fusa.Driver.OneByOne
import Fusa.Driver.FailedPost

/-! A place that is not harmless shows in the bytes of the WQE. -/
namespace Fusa.Driver.Sq
open Bytes List Option

/-- Data and header of a TSO request stay clear of the queue's end, and the WQE fits. -/
structure Ordinary (cfg : Cfg) (ram : Ram) (qp : Qp) (l : Locals) (w : SendWr) : Prop where
  tso : w.opcode = .tso → w.sendFlags.inline = false ∧
    cfg.slot qp.curPost + 30 + w.tsoHdrSz ≤ cfg.qend
  fits : ∀ b, build cfg ram qp l w = .ok b → 16 * b.size ≤ cfg.qend

variable {chain : List SendWr}

section
variable {cfg : Cfg} {ram : Ram} {qp qp' : Qp} {nreq : ℕ} {l : Locals} {w : SendWr}
  {b x y z : Build} {p q : SgCopyPtr} {curPost t : ℕ} {op : UInt32} {i : Bool}

theorem ctrlEnd_view {k : ℕ} (hc : b.ctrl + 12 ≤ cfg.qend) (hk : 12 ≤ k) (hlt : k < cfg.qend) :
    view (ctrlEnd cfg curPost op b) cfg.qend b.ctrl k = view b.mem cfg.qend b.ctrl k := by
  have hcell : (b.ctrl + k) % cfg.qend = _ := add_mod_ring (by omega) hlt
  have hout : (b.ctrl + k) % cfg.qend < b.ctrl ∨ b.ctrl + 12 ≤ (b.ctrl + k) % cfg.qend := by
    split at hcell <;> omega
  simp only [view]
  generalize (b.ctrl + k) % cfg.qend = c at *
  unfold ctrlEnd
  have h4 : ∀ (m : Mem) (a : ℕ) (xs : List UInt8), b.ctrl ≤ a → a + xs.length ≤ b.ctrl + 12 →
      put m a xs c = m c := fun m a xs h₁ h₂ => put_of_outside (by omega)
  split
  · rw [h4 _ _ _ (by omega) (by simp), h4 _ _ _ (by omega) (by simp), h4 _ _ _ (by omega) (by simp)]
  · rw [h4 _ _ _ (by omega) (by simp), h4 _ _ _ (by omega) (by simp)]

theorem image_inj {curPost' : ℕ} {op' : UInt32} (hctrl : z.ctrl = y.ctrl)
    (hc : y.ctrl + 12 ≤ cfg.qend) (hfit : 16 * y.size ≤ cfg.qend)
    (h : image cfg (ctrlEnd cfg curPost' op' z) z.toLocals = image cfg (ctrlEnd cfg curPost op y)
      y.toLocals) : z.size = y.size ∧ ∀ a n, 12 ≤ a → a + n ≤ 16 * y.size →
      slice (view z.mem cfg.qend y.ctrl) a n = slice (view y.mem cfg.qend y.ctrl) a n := by
  have hsize : z.size = y.size := by
    have := congrArg List.length h
    simp only [image, length_slice] at this
    omega
  refine ⟨hsize, fun a n ha hn => slice_congr fun k hk => ?_⟩
  have hcell := congrArg (·[a + k]?) h
  simp only [image, slice, hsize, hctrl, Nat.zero_add, List.getElem?_map] at hcell
  rw [List.getElem?_range (by omega), map_some, map_some, Option.some.injEq] at hcell
  rw [← ctrlEnd_view (b := y) hc (by omega) (by omega), ← hcell, ← hctrl]
  exact (ctrlEnd_view (hctrl ▸ hc) (by omega) (by omega)).symm

theorem dropWhile_drop {sgs : List Sge} {k : ℕ} (h : ∀ sg ∈ sgs.take k, sg.length = 0) :
    (sgs.drop k).dropWhile (fun sg => decide (sg.length = 0)) =
      sgs.dropWhile fun sg => decide (sg.length = 0) := by
  conv_rhs => rw [← take_append_drop k sgs]
  exact (dropWhile_append_of_pos fun sg hsg => decide_eq_true (h sg hsg)).symm

variable (sgs : List Sge)

theorem liveSges_drop (k : ℕ) (h : liveSges (sgs.drop k) = liveSges sgs) :
    (sgs.drop k).dropWhile (fun sg => decide (sg.length = 0)) =
      sgs.dropWhile fun sg => decide (sg.length = 0) := by
  have hsplit : liveSges (sgs.take k) + liveSges (sgs.drop k) = liveSges sgs := by
    rw [liveSges, liveSges, ← countP_append, take_append_drop, liveSges]
  have hzero : liveSges (sgs.take k) = 0 := by omega
  exact dropWhile_drop fun sg hsg => by simpa using countP_eq_zero.mp hzero sg hsg

theorem left_eq_of_live (h : liveSges (w.sgList.drop p.index) = liveSges (w.sgList.drop q.index)) :
    w.left p = w.left q := by
  unfold SendWr.left
  rcases Nat.le_total p.index q.index with hle | hle
  · have hd : w.sgList.drop q.index = (w.sgList.drop p.index).drop (q.index - p.index) := by
      rw [drop_drop, Nat.add_sub_cancel' hle]
    rw [hd] at h ⊢
    exact (liveSges_drop _ _ h.symm).symm
  · have hd : w.sgList.drop p.index = (w.sgList.drop q.index).drop (p.index - q.index) := by
      rw [drop_drop, Nat.add_sub_cancel' hle]
    rw [hd] at h ⊢
    exact liveSges_drop _ _ h

theorem dataBytes_dropWhile (offset : ℕ) :
    w.dataBytes sgs offset =
      w.dataBytes (sgs.dropWhile fun sg => decide (sg.length = 0)) offset := by
  induction sgs with
  | nil => rfl
  | cons sg sgs ih =>
    by_cases hz : sg.length = 0
    · rw [SendWr.dataBytes, if_pos hz, ih, dropWhile_cons_of_pos (by simp [hz])]
    · rw [dropWhile_cons_of_neg (by simp [hz])]

theorem offset_eq_of_dataSeg {sg : Sge} (hat : w.opcode.isAtomic = false) (hp : p.offset ≤ 18)
    (hq : q.offset ≤ 18) (h : w.dataSeg sg p.offset = w.dataSeg sg q.offset) :
    p.offset = q.offset := by
  unfold SendWr.dataSeg Sq.dataSeg at h
  simp only [hat, Bool.false_eq_true, if_false] at h
  have hcount := congrArg beNat (append_inj (append_inj h rfl).1 rfl).1
  rw [beNat_be32, beNat_be32] at hcount
  have hoff := congrArg UInt32.toNat (sub_right_inj.mp (UInt32.toNat.inj hcount))
  rwa [UInt32.toNat_ofNat_of_lt' (by simp [UInt32.size]; omega),
    UInt32.toNat_ofNat_of_lt' (by simp [UInt32.size]; omega)] at hoff

theorem inlineCount_toNat {n : ℕ} (h : n < 2 ^ 31) : (inlineCount n).toNat = 2 ^ 31 + n := by
  have hor := Nat.two_pow_add_eq_or_of_lt h 1
  have hn : (UInt32.ofNat n).toNat = n := UInt32.toNat_ofNat_of_lt' (by simp [UInt32.size]; omega)
  rw [inlineCount, UInt32.toNat_or, hn, Nat.or_comm]
  rw [Nat.mul_one] at hor
  exact hor.symm

def total : ℕ := (sgs.map fun sg => sg.length.toNat).sum

theorem length_inlBytes_zero : (inlBytes ram sgs 0).length = total sgs := by
  induction sgs with
  | nil => rfl
  | cons sg sgs ih => simp [inlBytes, ih, total]

theorem length_inlBytes_cons (sg : Sge) (sgs : List Sge) (offset : ℕ) :
    (inlBytes ram (sg :: sgs) offset).length = (sg.length.toNat - offset) + total sgs := by
  rw [inlBytes, length_append, length_load, length_inlBytes_zero]

theorem length_inlBytes_le (offset : ℕ) : (inlBytes ram sgs offset).length ≤ total sgs := by
  cases sgs with
  | nil => exact Nat.le_refl 0
  | cons sg sgs =>
    rw [length_inlBytes_cons]
    exact Nat.add_le_add_right (Nat.sub_le _ _) _

theorem total_split (k : ℕ) : total (sgs.take k) + total (sgs.drop k) = total sgs := by
  simp only [total, ← sum_append, ← map_append, take_append_drop]

theorem dropWhile_of_total (k : ℕ) (h : total (sgs.drop k) = total sgs) :
    (sgs.drop k).dropWhile (fun sg => decide (sg.length = 0)) =
      sgs.dropWhile fun sg => decide (sg.length = 0) := by
  have hzero : total (sgs.take k) = 0 := by
    have := total_split sgs k
    omega
  refine dropWhile_drop fun sg hsg => UInt32.toNat.inj (Nat.eq_zero_of_not_pos fun hpos => ?_)
  exact (List.sum_pos_iff_exists_pos_nat.mpr ⟨_, mem_map_of_mem hsg, hpos⟩).ne' hzero

/-- On an underlay, places that copy the same number of bytes are alike. -/
theorem bump_alike (hp : Sound w (w.bump p))
    (hx : ¬ w.firstSge.length.toNat < w.ipoibHeader w.firstSge.length)
    (htso : w.opcode = .tso → w.sendFlags.inline = false)
    (h : (inlBytes ram (w.sgList.drop (w.bump p).index) (w.bump p).offset).length =
      (inlBytes ram (w.sgList.drop (w.bump ⟨0, 0⟩).index) (w.bump ⟨0, 0⟩).offset).length) :
    Alike w (w.bump p) (w.bump ⟨0, 0⟩) := by
  have htso' : w.opcode = .tso → w.sendFlags.inline = true →
      (w.bump p).index = (w.bump ⟨0, 0⟩).index :=
    fun ho hin => absurd (htso ho) (by simp [hin])
  by_cases heq : w.firstSge.length.toNat = w.ipoibHeader w.firstSge.length
  · have hbump : ∀ p : SgCopyPtr, w.bump p = { p with index := p.index + 1 } := fun p => if_pos heq
    rw [hbump] at hp
    rw [hbump p, hbump ⟨0, 0⟩] at h htso' ⊢
    have hdrop : w.sgList.drop (p.index + 1) = (w.sgList.drop (0 + 1)).drop p.index := by
      rw [drop_drop, Nat.zero_add, Nat.add_comm]
    simp only [length_inlBytes_zero, hdrop] at h
    have hle := total_split (w.sgList.drop (0 + 1)) p.index
    have hleft : total ((w.sgList.drop (0 + 1)).drop p.index) = total (w.sgList.drop (0 + 1)) →
        w.left ⟨p.index + 1, p.offset⟩ = w.left ⟨0 + 1, 0⟩ := by
      intro ht
      unfold SendWr.left
      rw [hdrop]
      exact dropWhile_of_total _ _ ht
    by_cases ho : p.offset = 0
    · rw [ho, length_inlBytes_zero] at h
      exact ⟨hleft h, .inl ho, htso'⟩
    · have hs := hp.resolve_left ho
      unfold SendWr.left at hs
      simp only [hdrop] at hs
      cases hd : (w.sgList.drop (0 + 1)).drop p.index with
      | nil =>
        rw [hd] at h hleft
        have hl := hleft h
        refine ⟨hl, .inr (.inl ?_), htso'⟩
        rw [← hl]
        unfold SendWr.left
        simp only [hdrop, hd]
        rfl
      | cons sg sgs =>
        -- the offset would be missing
        rw [hd] at h hs hle
        have hne : sg.length.toNat ≠ 0 := by
          intro h0
          have hz : sg.length = 0 := UInt32.toNat.inj h0
          rw [dropWhile_cons_of_pos (by simp [hz])] at hs
          have hlen := congrArg List.length hs
          have := length_dropWhile_le (fun sg : Sge => decide (sg.length = 0)) sgs
          simp only [length_cons] at hlen
          omega
        have hcons : total (sg :: sgs) = sg.length.toNat + total sgs := rfl
        rw [length_inlBytes_cons] at h
        omega
  · have hbump : ∀ p : SgCopyPtr, w.bump p = { p with offset := w.ipoibHeader w.firstSge.length } :=
      fun p => if_neg heq
    rw [hbump p, hbump ⟨0, 0⟩] at h htso' ⊢
    cases hi : p.index with
    | zero => exact ⟨rfl, .inl rfl, fun _ _ => rfl⟩
    | succ k =>
      -- the rest of the first SGE would be missing
      cases hl : w.sgList with
      | nil =>
        simp only [SendWr.firstSge, hl, headD_nil, UInt32.toNat_zero] at hx heq
        omega
      | cons sg sgs =>
        have hfirst : w.firstSge = sg := by simp [SendWr.firstSge, hl]
        have hle : (inlBytes ram (sgs.drop k) (w.ipoibHeader w.firstSge.length)).length ≤
            total (sgs.drop k) := length_inlBytes_le _ _
        have hle' := total_split sgs k
        simp only [hi, hl, drop_succ_cons, drop_zero, length_inlBytes_cons] at h
        rw [hfirst] at hx heq h hle
        omega

theorem setTsoEthSeg_aligned (h : setTsoEthSeg cfg ram w b = .ok x) (hs : Aligned cfg b)
    (hroom : b.seg + 14 + w.tsoHdrSz ≤ cfg.qend) :
    Aligned cfg x ∧ x.ctrl = b.ctrl ∧ b.size ≤ x.size := by
  have hcopy : min (cfg.qend - (b.seg + 14)) w.tsoHdrSz = w.tsoHdrSz := Nat.min_eq_right (by omega)
  unfold setTsoEthSeg tsoSeg at h
  split at h
  · cases h
  · rename_i hsz
    simp only [hcopy, Nat.lt_irrefl, if_false] at h
    cases h
    have hu := hs.units
    have he := cfg.qend_units
    refine ⟨hs.step (n := align16 (w.tsoHdrSz - 2) / 16 + 1) rfl ?_ ?_ ?_, rfl, ?_⟩ <;>
    · simp only [align16]
      omega

theorem setDataInlSeg_ok (h : setDataInlSeg cfg ram w x = .ok y) :
    ∃ n, n = (inlBytes ram (w.sgList.drop x.sg.index) x.sg.offset).length ∧
      n ≤ cfg.maxInlineData ∧ Sound w x.sg ∧ y.ctrl = x.ctrl ∧
      y.size = x.size + (if n = 0 then 0 else align16 (n + 4) / 16) ∧
      (n ≠ 0 → ∃ m, y.mem = put m x.seg (be32 (inlineCount n))) := by
  unfold setDataInlSeg at h
  cases hl : inlLoop cfg ram (w.sgList.drop x.sg.index) x.sg.offset x.mem (x.seg + 4) 0 with
  | error e => simp [hl] at h
  | ok r =>
    obtain ⟨m, n⟩ := r
    obtain ⟨hn, hmax, -⟩ := inlLoop_ok hl
    simp only [hl] at h
    refine ⟨n, by omega, hmax (Nat.zero_le _), sound_of_inlLoop hl, ?_⟩
    split_ifs at h with h0
    · cases h
      exact ⟨rfl, by simp [h0], fun hne => absurd h0 hne⟩
    · cases h
      exact ⟨rfl, by simp [h0], fun _ => ⟨m, rfl⟩⟩

theorem slice_of_loaded {sgs : List Sge} (h : Loaded cfg w sgs b y) (hb : Aligned cfg b)
    (hfit : 16 * y.size ≤ cfg.qend) :
    slice (view y.mem cfg.qend b.ctrl) (16 * b.size) (16 * liveSges sgs) =
      w.dataBytes sgs b.sg.offset := by
  have hsize := h.size
  rw [(h.view hb hfit).slice (by omega), ← length_dataBytes (w := w) sgs b.sg.offset]
  exact slice_put_self

/-- WQEs with the same bytes have gathered from places that are alike: data segments. -/
theorem alike_of_dataLoop (hx : Aligned cfg x) (hp : x.sg.offset ≤ 18) (hq : q.offset ≤ 18)
    (hx1 : 1 ≤ x.size) (hin : ¬ (w.sendFlags.inline = true ∧ w.sgList ≠ []))
    (htso : w.opcode = .tso → w.sendFlags.inline = false)
    (h : dataLoop cfg w (w.sgList.drop x.sg.index) x = .ok y)
    (h' : dataLoop cfg w (w.sgList.drop q.index) (x.tweak q t i) = .ok z)
    (hfit : 16 * y.size ≤ cfg.qend) (hsize : z.size = y.size)
    (hbytes : ∀ a n, 12 ≤ a → a + n ≤ 16 * y.size → slice (view z.mem cfg.qend x.ctrl) a n = slice
      (view y.mem cfg.qend x.ctrl) a n) : Alike w x.sg q := by
  have hy := dataLoop_loaded h
  have hz := dataLoop_loaded h'
  have hxt : (x.tweak q t i).size = x.size := rfl
  have hlive : liveSges (w.sgList.drop x.sg.index) = liveSges (w.sgList.drop q.index) := by
    have h₁ := hy.size
    have h₂ := hz.size
    omega
  have hleft : w.left x.sg = w.left q := left_eq_of_live hlive
  have htso' : w.opcode = .tso → w.sendFlags.inline = true → x.sg.index = q.index :=
    fun ho hi => absurd (htso ho) (by simp [hi])
  by_cases hoff : x.sg.offset = q.offset
  · exact ⟨hleft, .inl hoff, htso'⟩
  cases hl : w.left q with
  | nil => exact ⟨hleft, .inr (.inl hl), htso'⟩
  | cons sg rest =>
    have hne : w.sgList ≠ [] := by
      intro hnil
      simp [SendWr.left, hnil] at hl
    have hptr : w.sendFlags.inline = false := by
      cases hi : w.sendFlags.inline with
      | false => rfl
      | true => exact absurd ⟨hi, hne⟩ hin
    cases hat : w.opcode.isAtomic with
    | true => exact ⟨hleft, .inr (.inr ⟨hat, hptr⟩), htso'⟩
    | false =>
      -- the first data segments have different offsets
      refine absurd ?_ hoff
      have hvy := slice_of_loaded hy hx hfit
      have hvz : slice (view z.mem cfg.qend x.ctrl) (16 * x.size)
          (16 * liveSges (w.sgList.drop q.index)) = w.dataBytes (w.sgList.drop q.index) q.offset :=
        slice_of_loaded hz ⟨hx.ctrl, hx.le, hx.units, hx.place⟩ (hsize ▸ hfit)
      rw [← hlive, hbytes _ _ (by omega) (by have := hy.size; omega), hvy, dataBytes_dropWhile,
        dataBytes_dropWhile (w.sgList.drop q.index)] at hvz
      unfold SendWr.left at hleft hl
      rw [hleft, hl] at hvz
      have hsg : sg.length ≠ 0 := by
        have := dropWhile_get_zero_not (fun sg : Sge => decide (sg.length = 0))
          (w.sgList.drop q.index) (by simp [hl])
        simpa [hl] using this
      rw [SendWr.dataBytes, SendWr.dataBytes, if_neg hsg, if_neg hsg] at hvz
      exact offset_eq_of_dataSeg hat hp hq (append_inj hvz (by simp)).1

/-- WQEs with the same bytes were gathered from alike places: inline data on an underlay. -/
theorem bump_alike_of_inline (hx : Aligned cfg x) (hroom : x.seg + 4 ≤ cfg.qend) (hx1 : 1 ≤ x.size)
    (hxs : x.sg = w.bump p) (hfirst : ¬ w.firstSge.length.toNat < w.ipoibHeader w.firstSge.length)
    (htso : w.opcode = .tso → w.sendFlags.inline = false) (h : setDataInlSeg cfg ram w x = .ok y)
    (h' : setDataInlSeg cfg ram w (x.tweak (w.bump ⟨0, 0⟩) t i) = .ok z)
    (hfit : 16 * y.size ≤ cfg.qend) (hsize : z.size = y.size)
    (hbytes : ∀ a n, 12 ≤ a → a + n ≤ 16 * y.size → slice (view z.mem cfg.qend x.ctrl) a n = slice
      (view y.mem cfg.qend x.ctrl) a n) : Alike w (w.bump p) (w.bump ⟨0, 0⟩) := by
  obtain ⟨n, hn, hmax, hsound, -, hys, hym⟩ := setDataInlSeg_ok h
  obtain ⟨n', hn', hmax', -, -, hzs, hzm⟩ := setDataInlSeg_ok h'
  have hxt : (x.tweak (w.bump ⟨0, 0⟩) t i).size = x.size := rfl
  have hlt := cfg.maxInlineData_lt
  have hcount : n = n' := by
    by_cases h0 : n = 0
    · rw [if_pos h0] at hys
      by_contra hne
      rw [if_neg (by omega), align16] at hzs
      omega
    · have h0' : n' ≠ 0 := by
        intro h0'
        rw [if_neg h0, align16] at hys
        rw [if_pos h0'] at hzs
        omega
      rw [if_neg h0, align16] at hys
      obtain ⟨m, hm⟩ := hym h0
      obtain ⟨m', hm'⟩ := hzm h0'
      have hread : ∀ (m : Mem) (k : ℕ),
          slice (view (put m x.seg (be32 (inlineCount k))) cfg.qend x.ctrl) (16 * x.size) 4 =
            be32 (inlineCount k) := by
        intro m k
        have hv : Agree cfg.qend (view (put m x.seg (be32 (inlineCount k))) cfg.qend x.ctrl)
            (put (view m cfg.qend x.ctrl) (16 * x.size) (be32 (inlineCount k))) :=
          Bytes.view_put hx.ctrl (by rw [length_be32]; omega) hroom hx.place
        rw [hv.slice (by omega)]
        exact slice_put_self
      have hb := hbytes (16 * x.size) 4 (by omega) (by omega)
      have hm'' : z.mem = put m' x.seg (be32 (inlineCount n')) := hm'
      rw [hm, hm'', hread, hread] at hb
      have hnat := congrArg beNat hb
      rw [beNat_be32, beNat_be32, inlineCount_toNat (by omega), inlineCount_toNat (by omega)]
        at hnat
      omega
  rw [hxs] at hn hsound
  exact bump_alike hsound hfirst htso (hn.symm.trans (hcount.trans hn'))

theorem postSendUnderlay_first (h : postSendUnderlay cfg ram w b = .ok x) :
    ¬ w.firstSge.length.toNat < w.ipoibHeader w.firstSge.length := by
  simp only [postSendUnderlay] at h
  split_ifs at h with _ _ hlt <;> exact hlt

theorem headerSegs_aligned (hm : cfg.moves) (ha : ¬ cfg.aims w) (hord : Ordinary cfg ram qp l w)
    (h : headerSegs cfg ram w (start cfg qp l w) = .ok x) :
    Aligned cfg x ∧ x.ctrl = cfg.slot qp.curPost ∧ 1 ≤ x.size := by
  rcases hm with hu | hq
  · rw [headerSegs_underlay hu] at h
    exact (udSegs_aligned hu.2 h).1
  · have ho : w.opcode = .tso := by
      by_contra ho
      exact ha ⟨hq, ho⟩
    simp only [headerSegs, hq, rawSegs, if_pos ho] at h
    split at h
    · cases h
    · obtain ⟨hs, -⟩ : Aligned cfg (start cfg qp l w) ∧ _ := start_aligned
      refine setTsoEthSeg_aligned h ⟨hs.ctrl, hs.le, hs.units, hs.place⟩ ?_
      have hslot := (hord.tso ho).2
      have hseg : (start cfg qp l w).seg = cfg.slot qp.curPost + 16 := rfl
      simp only [hseg]
      omega

theorem dataSegs_ctrl (h : dataSegs cfg ram w x = .ok y) : y.ctrl = x.ctrl := by
  unfold dataSegs at h
  split at h
  · obtain ⟨n, -, -, -, hc, -⟩ := setDataInlSeg_ok h
    exact hc
  · exact (dataLoop_loaded h).ctrl

/-- A WQE with the bytes of the single call was gathered from a harmless place. -/
theorem harmless_of_image (hab : Abreast qp nreq l qp') (hl : Tame cfg l)
    (hord : Ordinary cfg ram qp l w) (hy : build cfg ram qp l w = .ok y)
    (hz : build cfg ram qp' (.init qp'.fmCache) w = .ok z)
    (himg : image cfg (finish cfg qp' 0 w z).mem z.toLocals =
      image cfg (finish cfg qp nreq w y).mem y.toLocals) : Harmless cfg w l.sg := by
  by_cases ha : cfg.aims w
  · exact .inl ha
  refine .inr ?_
  by_cases hm : cfg.moves
  · have hfit := hord.fits y hy
    obtain ⟨x, hh, hy'⟩ := build_ok hy
    obtain ⟨x', hh', hz'⟩ := build_ok hz
    have hp := headerSegs_passes hh
    rw [hab.start_eq, hp.tweak ha] at hh'
    cases hh'
    obtain ⟨hx, hslot, hx1⟩ := headerSegs_aligned hm ha hord hh
    have hyc := dataSegs_ctrl hy'
    have hzc := dataSegs_ctrl hz'
    have hroom : x.ctrl + 12 ≤ cfg.qend := by
      have hlt : qp.curPost % cfg.wqeCnt < cfg.wqeCnt := Nat.mod_lt _ cfg.wqeCnt_pos
      rw [hslot, Cfg.slot, Cfg.qend]
      omega
    obtain ⟨hsize, hbytes⟩ := image_inj (hzc.trans hyc.symm) (by rw [hyc]; exact hroom) hfit himg
    rw [hyc] at hbytes
    have htso := fun ho => (hord.tso ho).1
    have hxs : x.sg = cfg.aim w l.sg := hp.sg ha
    rw [← hxs]
    unfold dataSegs at hy' hz'
    by_cases hin : w.sendFlags.inline = true ∧ w.sgList ≠ []
    · rw [if_pos hin] at hy' hz'
      -- only an underlay has inline data behind a place that moves
      have hu : cfg.qpType = .ud ∧ cfg.underlay = true := by
        refine hm.resolve_right fun hq => ?_
        have ho : w.opcode = .tso := by
          by_contra ho
          exact ha ⟨hq, ho⟩
        exact absurd (htso ho) (by simp [hin.1])
      have haim : ∀ p, cfg.aim w p = w.bump p := fun p => if_pos hu
      rw [hxs, haim, haim]
      rw [haim] at hz'
      rw [headerSegs_underlay hu] at hh
      have hroom' := (udSegs_aligned hu.2 hh).2
      simp only [udSegs, hu.2, if_true] at hh
      exact bump_alike_of_inline hx (by omega) hx1 (hxs.trans (haim _))
        (postSendUnderlay_first hh) htso hy' hz' hfit hsize hbytes
    · rw [if_neg hin] at hy' hz'
      have hpo := headerSegs_offset hh hl.offset
      have hqo : (cfg.aim w ⟨0, 0⟩).offset ≤ 18 := by
        unfold Cfg.aim
        split
        · exact SendWr.bump_offset (Nat.zero_le _)
        · exact Nat.zero_le _
      exact alike_of_dataLoop hx hpo hqo hx1 hin htso hy' hz' hfit hsize hbytes
  · rw [hl.still hm]
    exact ⟨rfl, .inl rfl, fun _ _ => rfl⟩

/-- The loop comes to each work request in an ordinary state. -/
def OrdinaryChain (cfg : Cfg) (ram : Ram) (qp : Qp) (nreq : ℕ) (l : Locals)
    (chain : List SendWr) : Prop :=
  ∀ pre w post, chain = pre ++ w :: post →
    Ordinary cfg ram (postLoop cfg ram qp nreq l pre).qp (postLoop cfg ram qp nreq l pre).locals w

theorem OrdinaryChain.tail {r : Qp × Locals} (h : postOne cfg ram qp nreq l w = .ok r)
    (hord : OrdinaryChain cfg ram qp nreq l (w :: chain)) :
    OrdinaryChain cfg ram r.1 (nreq + 1) r.2 chain := by
  intro pre v post he
  have := hord (w :: pre) v post (he ▸ rfl)
  rwa [postLoop, h] at this

theorem Abreast.freshPlaces (hab : Abreast qp nreq l qp') (hl : Tame cfg l)
    (h : (postLoop cfg ram qp nreq l chain).err = none)
    (hord : OrdinaryChain cfg ram qp nreq l chain) {qp'' : Qp}
    (he : postEach cfg ram qp' chain = some (qp'', wqes cfg ram qp nreq l chain)) :
    FreshPlaces cfg ram qp nreq l chain := by
  induction chain generalizing qp nreq l qp' with
  | nil => exact fun pre w post hnil => by simp at hnil
  | cons w chain ih =>
    cases ho : postOne cfg ram qp nreq l w with
    | error e => simp [postLoop, ho] at h
    | ok r =>
      cases ho' : postOne cfg ram qp' 0 (.init qp'.fmCache) w with
      | error e => simp [postEach, postSend, walk, postLoop, ho'] at he
      | ok r' =>
        have hp : postSend cfg ram qp' [w] = (Walk.out cfg ⟨r'.1, 1, r'.2, none⟩, none) := by
          simp only [postSend, walk_singleton ho', map_none]
        simp only [postEach, hp, walk_singleton ho', wqes, ho, map_eq_some_iff,
          Prod.mk.injEq, List.cons.injEq] at he
        obtain ⟨⟨qe, imgs⟩, hrest, rfl, himg, rfl⟩ := he
        obtain ⟨-, y, hy, rfl⟩ := postOne_ok.mp ho
        obtain ⟨-, z, hz, rfl⟩ := postOne_ok.mp ho'
        have hw : Harmless cfg w l.sg := harmless_of_image hab hl (hord [] w chain rfl) hy hz himg
        obtain ⟨r', hr', hab', -⟩ := hab.post hl ho hw
        obtain rfl := Except.ok.inj (ho'.symm.trans hr')
        simp only [postLoop, ho] at h
        exact (freshPlaces_cons ho).mpr ⟨hw, ih hab' (hl.post ho) h (hord.tail ho) hrest⟩

end

theorem freshPlaces_of_not_moves {cfg : Cfg} {ram : Ram} {qp : Qp} {nreq : ℕ} {l : Locals}
    (hm : ¬ cfg.moves) (hl : Tame cfg l) (h : (postLoop cfg ram qp nreq l chain).err = none) :
    FreshPlaces cfg ram qp nreq l chain := by
  induction chain generalizing qp nreq l with
  | nil => exact fun pre w post hnil => by simp at hnil
  | cons w chain ih =>
    cases ho : postOne cfg ram qp nreq l w with
    | error e => simp [postLoop, ho] at h
    | ok r =>
      simp only [postLoop, ho] at h
      refine (freshPlaces_cons ho).mpr ⟨.inr ?_, ih (hl.post ho) h⟩
      rw [hl.still hm]
      exact ⟨rfl, .inl rfl, fun _ _ => rfl⟩

/-- A chain does what its requests do one by one if each meets a harmless place, and only then. -/
theorem oneByOne_iff (cfg : Cfg) (ram : Ram) (qp : Qp) (chain : List SendWr)
    (h : (postSend cfg ram qp chain).2 = none) :
    (FreshPlaces cfg ram qp 0 (.init qp.fmCache) chain → OneByOne cfg ram qp chain) ∧
      (OrdinaryChain cfg ram qp 0 (.init qp.fmCache) chain →
        (OneByOne cfg ram qp chain ↔ FreshPlaces cfg ram qp 0 (.init qp.fmCache) chain)) := by
  have herr : (postLoop cfg ram qp 0 (.init qp.fmCache) chain).err = none := by
    simpa [postSend, walk] using h
  have hsuff : FreshPlaces cfg ram qp 0 (.init qp.fmCache) chain → OneByOne cfg ram qp chain := by
    intro hf
    obtain ⟨qp', he, hend⟩ := abreast_init.run (tame_init _) herr hf
    exact ⟨qp', he, hend.sameBooks⟩
  refine ⟨hsuff, fun hord => ⟨fun ho => ?_, hsuff⟩⟩
  obtain ⟨qp', he, -⟩ := ho
  exact abreast_init.freshPlaces (tame_init _) herr hord he

def rawQp : Cfg :=
  { fourBlocks with qpType := .rawPacket, qpStateMaxGs := 2, maxTso := 1000, maxTsoHeader := 64 }

theorem oneByOne_twoSends : OneByOne fourBlocks (fun _ => 0) (.empty 0)
    [{ opcode := .send, sgList := [⟨4096, 64, 1⟩] }, { opcode := .send, wrId := 1 }] :=
  (oneByOne_iff fourBlocks (fun _ => 0) (.empty 0)
    [{ opcode := .send, sgList := [⟨4096, 64, 1⟩] }, { opcode := .send, wrId := 1 }]
    (by decide +kernel)).1 (freshPlaces_of_not_moves (by unfold Cfg.moves; decide) (tame_init _)
      (by decide +kernel))

/-- Behind a packet whose header is one SGE, a TSO packet loses its payload, the first SGE. -/
theorem not_oneByOne_tsoBehindPacket : ¬ OneByOne rawQp (fun _ => 0) (.empty 0)
    [{ opcode := .send, sgList := [⟨4096, 18, 1⟩, ⟨8192, 46, 1⟩] },
      { opcode := .tso, sgList := [⟨12288, 100, 1⟩], tsoHdrSz := 14, tsoMss := 50 }] := by
  intro h
  obtain ⟨qp', he, -⟩ := h
  have himg := congrArg (Option.map Prod.snd) he
  simp only [map_some] at himg
  exact absurd himg (by decide +kernel)

end Fusa.Driver.Sq

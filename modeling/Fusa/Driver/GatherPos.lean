import Fusa.Driver.SqSize
import Mathlib.Data.List.TakeWhile

/-! What a WQE takes from the loop variables of `_mlx5_post_send`: the place where gathering starts,
and the TSO budget. -/
namespace Fusa.Driver.Sq
open Bytes List

def Build.tweak (b : Build) (sg : SgCopyPtr) (maxTso : ℕ) (inl : Bool) : Build :=
  { b with sg, maxTso, inl }

/-- The place behind the header of `mlx5_post_send_underlay`. -/
def SendWr.bump (w : SendWr) (p : SgCopyPtr) : SgCopyPtr :=
  if w.firstSge.length.toNat = w.ipoibHeader w.firstSge.length then { p with index := p.index + 1 }
  else { p with offset := w.ipoibHeader w.firstSge.length }

/-- The place from which the data is gathered, where the loop comes with `p`. -/
def Cfg.aim (cfg : Cfg) (w : SendWr) (p : SgCopyPtr) : SgCopyPtr :=
  if cfg.qpType = .ud ∧ cfg.underlay then w.bump p else p

/-- Only a raw packet that is not TSO sets the place anew. -/
def Cfg.aims (cfg : Cfg) (w : SendWr) : Prop := cfg.qpType = .rawPacket ∧ w.opcode ≠ .tso

def Cfg.moves (cfg : Cfg) : Prop := (cfg.qpType = .ud ∧ cfg.underlay) ∨ cfg.qpType = .rawPacket

def Cfg.budget (cfg : Cfg) (w : SendWr) (maxTso : ℕ) : ℕ :=
  if cfg.qpType = .rawPacket ∧ w.opcode = .tso then cfg.maxTso else maxTso

/-- The segments of `f` take no loop variable in; a place goes on through `g`, a budget through
`k`. -/
def HandsOn (g : SgCopyPtr → SgCopyPtr) (k : ℕ → ℕ) (f : Build → Try) : Prop :=
  ∀ ⦃b x⦄, f b = .ok x → (∀ p t i, f (b.tweak p t i) = .ok (x.tweak (g p) (k t) i)) ∧
    x.sg = g b.sg ∧ x.maxTso = k b.maxTso

section
variable {cfg : Cfg} {ram : Ram} {b x : Build} {w : SendWr}
  {type : MwType} {rkey : UInt32} {info : BindInfo}

theorem setBindWr_handsOn : HandsOn id id (setBindWr cfg type rkey info) := by
  intro b x h
  unfold setBindWr at h ⊢
  split_ifs at h ⊢ <;>
  · cases h
    exact ⟨fun _ _ _ => rfl, rfl, rfl⟩

theorem umrSegs_handsOn {imm : UInt32} {d : WrData} :
    HandsOn id id (umrSegs cfg imm type rkey info d) := by
  intro b x h
  unfold umrSegs at h
  cases hb : setBindWr cfg type rkey info
      { b with nextFence := 0x20, mem := put b.mem (b.ctrl + 12) (be32 imm) } with
  | error e => simp [hb, bind, Except.bind] at h
  | ok y =>
    rw [hb] at h
    cases h
    obtain ⟨ht, hs⟩ := setBindWr_handsOn hb
    exact ⟨fun p t i => congrArg (· >>= _) (ht p t i), hs⟩

theorem rcSegs_handsOn : HandsOn id id (rcSegs cfg w) := by
  intro b x h
  cases ho : w.opcode with
  | bindMw | localInv =>
    simp only [rcSegs, ho, bindSegs, localInvSegs] at h ⊢
    exact umrSegs_handsOn h
  | atomicCmpAndSwp | atomicFetchAndAdd =>
    simp only [rcSegs, ho] at h ⊢
    split_ifs at h ⊢
    cases h
    exact ⟨fun _ _ _ => rfl, rfl, rfl⟩
  | _ =>
    simp only [rcSegs, ho] at h ⊢
    cases h
    exact ⟨fun _ _ _ => rfl, rfl, rfl⟩

theorem xrcSegs_handsOn : HandsOn id id (xrcSegs cfg w) := by
  intro b x h
  unfold xrcSegs at h ⊢
  split_ifs at h ⊢ <;> exact rcSegs_handsOn h

theorem ucSegs_handsOn : HandsOn id id (ucSegs cfg w) := by
  intro b x h
  cases ho : w.opcode with
  | bindMw | localInv =>
    simp only [ucSegs, ho, bindSegs, localInvSegs] at h ⊢
    exact umrSegs_handsOn h
  | _ =>
    simp only [ucSegs, ho] at h ⊢
    cases h
    exact ⟨fun _ _ _ => rfl, rfl, rfl⟩

theorem postSendUnderlay_handsOn : HandsOn w.bump id (postSendUnderlay cfg ram w) := by
  intro b x h
  simp only [postSendUnderlay] at h ⊢
  split_ifs at h ⊢ with _ _ _ hn <;>
  · cases h
    simp only [SendWr.bump, hn, if_true, if_false]
    exact ⟨fun _ _ _ => rfl, rfl, rfl⟩

theorem udSegs_handsOn (hq : cfg.qpType = .ud) : HandsOn (cfg.aim w) id (udSegs cfg ram w) := by
  intro b x h
  unfold udSegs Cfg.aim at *
  simp only [hq, true_and]
  split_ifs at h ⊢
  · exact postSendUnderlay_handsOn h
  · cases h
    exact ⟨fun _ _ _ => rfl, rfl, rfl⟩

theorem tsoSegs_handsOn (ho : w.opcode = .tso) :
    HandsOn id (fun _ => cfg.maxTso) (rawSegs cfg ram w) := by
  intro b x h
  simp only [rawSegs, if_pos ho, setTsoEthSeg] at h ⊢
  split_ifs at h ⊢
  cases h
  exact ⟨fun _ _ _ => rfl, rfl, rfl⟩

theorem headerSegs_handsOn (ha : ¬ cfg.aims w) :
    HandsOn (cfg.aim w) (cfg.budget w) (headerSegs cfg ram w) := by
  intro b x h
  have hg (hq : cfg.qpType ≠ .ud) : cfg.aim w = id := funext fun _ => if_neg fun hu => hq hu.1
  have hk (hq : cfg.qpType ≠ .rawPacket) : cfg.budget w = id :=
    funext fun _ => if_neg fun hr => hq hr.1
  cases hq : cfg.qpType with
  | ud =>
    rw [hk (by simp [hq])]
    simp only [headerSegs, hq] at h ⊢
    exact udSegs_handsOn hq h
  | rawPacket =>
    have ho : w.opcode = .tso := by_contra fun ho => ha ⟨hq, ho⟩
    have hbudget : cfg.budget w = fun _ => cfg.maxTso := funext fun _ => if_pos ⟨hq, ho⟩
    rw [hg (by simp [hq]), hbudget]
    simp only [headerSegs, hq] at h ⊢
    exact tsoSegs_handsOn ho h
  | _ =>
    rw [hg (by simp [hq]), hk (by simp [hq])]
    simp only [headerSegs, hq] at h ⊢
    first
      | exact rcSegs_handsOn h
      | exact ucSegs_handsOn h
      | exact xrcSegs_handsOn h
      | cases h; exact ⟨fun _ _ _ => rfl, rfl, rfl⟩

theorem ethSegs_tweak (h : ethSegs cfg ram w b = .ok x) :
    (∀ p t i, ethSegs cfg ram w (b.tweak p t i) = .ok (x.tweak x.sg t i)) ∧
      x.maxTso = b.maxTso := by
  unfold ethSegs at h ⊢
  cases he : copyEthInlineHeaders ram cfg.ethMinInlineSize (w.sgList.map Sge.buf) b.mem b.seg with
  | error e => simp [he] at h
  | ok y =>
    rw [he] at h
    cases h
    refine ⟨fun p t i => ?_, rfl⟩
    have he' : copyEthInlineHeaders ram cfg.ethMinInlineSize (w.sgList.map Sge.buf)
        (b.tweak p t i).mem (b.tweak p t i).seg = .ok y := he
    rw [he']
    rfl

/-- The segments before the data depend on no loop variable but the place and the budget. -/
structure Passes (cfg : Cfg) (ram : Ram) (w : SendWr) (b x : Build) : Prop where
  aims : cfg.aims w → ∀ p t i, headerSegs cfg ram w (b.tweak p t i) = .ok (x.tweak x.sg t i)
  sg : ¬ cfg.aims w → x.sg = cfg.aim w b.sg
  tweak : ¬ cfg.aims w → ∀ p t i, headerSegs cfg ram w (b.tweak p t i) =
    .ok (x.tweak (cfg.aim w p) (cfg.budget w t) i)
  maxTso : x.maxTso = cfg.budget w b.maxTso

theorem headerSegs_passes (h : headerSegs cfg ram w b = .ok x) : Passes cfg ram w b x := by
  by_cases ha : cfg.aims w
  · obtain ⟨hq, ho⟩ := id ha
    have hbudget : ∀ t, cfg.budget w t = t := fun t => if_neg fun hr => ho hr.2
    simp only [headerSegs, hq, rawSegs, if_neg ho] at h
    split_ifs at h with hc
    obtain ⟨ht, hm⟩ := ethSegs_tweak h
    refine ⟨fun _ p t i => ?_, absurd ha, absurd ha, hm.trans (hbudget _).symm⟩
    simp only [headerSegs, hq, rawSegs, if_neg hc, if_neg ho]
    exact ht p t i
  · obtain ⟨ht, hs, hm⟩ := headerSegs_handsOn ha h
    exact ⟨fun h => absurd h ha, fun _ => hs, fun _ => ht, hm⟩

end

/-- What is left of the SGEs from a place on; empty ones in front do not count. -/
def SendWr.left (w : SendWr) (p : SgCopyPtr) : List Sge :=
  (w.sgList.drop p.index).dropWhile fun sg => sg.length = 0

/-- The same data is gathered from `p` as from `q`. -/
structure Alike (w : SendWr) (p q : SgCopyPtr) : Prop where
  left : w.left p = w.left q
  offset : p.offset = q.offset ∨ w.left q = [] ∨
    (w.opcode.isAtomic = true ∧ w.sendFlags.inline = false)
  tso : w.opcode = .tso → w.sendFlags.inline = true → p.index = q.index

def Sound (w : SendWr) (p : SgCopyPtr) : Prop := p.offset = 0 ∨ w.left p = w.sgList.drop p.index

def outcome : Try → Option (Mem × ℕ × ℕ × UInt8 × WrData)
  | .ok b => some (b.mem, b.size, b.ctrl, b.nextFence, b.wrData)
  | .error _ => none

section
variable {cfg : Cfg} {ram : Ram} {b x : Build} {w : SendWr} {sgs zs : List Sge}
  {p q : SgCopyPtr}

theorem Build.wrap_wrap : (b.wrap cfg).wrap cfg = b.wrap cfg := by
  unfold Build.wrap
  split_ifs with h₁ h₂ <;> rfl

theorem dataLoop_wrap :
    outcome (dataLoop cfg w sgs (b.wrap cfg)) = outcome (dataLoop cfg w sgs b) := by
  cases sgs with
  | nil => rfl
  | cons sg sgs => simp only [dataLoop, Build.wrap_wrap]

theorem dataLoop_zeros (hz : ∀ z ∈ zs, z.length = 0) :
    outcome (dataLoop cfg w (zs ++ sgs) b) = outcome (dataLoop cfg w sgs b) := by
  induction zs generalizing b with
  | nil => rfl
  | cons z zs ih =>
    rw [cons_append, dataLoop]
    simp only [hz z (by simp), if_true]
    rw [ih fun z' h' => hz z' (by simp [h']), dataLoop_wrap]

theorem dataLoop_left : outcome (dataLoop cfg w (w.sgList.drop p.index) b) =
    outcome (dataLoop cfg w (w.left p) b) := by
  have hsplit := (takeWhile_append_dropWhile (p := fun sg : Sge => decide (sg.length = 0))
    (l := w.sgList.drop p.index)).symm
  conv_lhs => rw [hsplit]
  exact dataLoop_zeros fun z hz => by simpa using mem_takeWhile_imp hz

/-- A data segment at the cursor, behind which no offset is left. -/
def Build.point (b : Build) (sg : Sge) : Build :=
  (b.emit (setDataPtrSeg b.mem b.seg sg b.sg.offset) 16).aim { b.sg with offset := 0 }

theorem Build.point_tweak (ho : q.offset = b.sg.offset) (t : ℕ) (i : Bool) (sg : Sge) :
    (b.tweak q t i).point sg = (b.point sg).tweak { q with offset := 0 } t i := by
  have h : (b.tweak q t i).sg.offset = b.sg.offset := ho
  unfold Build.point
  rw [h]
  rfl

variable {t wqe n : ℕ} {i : Bool} {m m' : Mem} {y : Build}

theorem dataLoop_tweak (hoff : q.offset = b.sg.offset ∨ sgs = [] ∨ w.opcode.isAtomic = true)
    (ht : w.opcode = .tso → t = b.maxTso) :
    outcome (dataLoop cfg w sgs (b.tweak q t i)) = outcome (dataLoop cfg w sgs b) := by
  induction sgs generalizing b q t with
  | nil => rfl
  | cons sg sgs ih =>
    simp only [dataLoop]
    by_cases hz : sg.length = 0
    · simp only [if_pos hz]
      exact ih (b := b.wrap cfg) (hoff.imp_right fun h => .inr (h.resolve_left (by simp))) ht
    · simp only [if_neg hz]
      by_cases hat : w.opcode.isAtomic = true
      · simp only [if_pos hat]
        exact ih (b := ((b.wrap cfg).emit _ 16).aim _) (.inl rfl) ht
      · have ho : q.offset = b.sg.offset := hoff.resolve_right (by simp [hat])
        simp only [if_neg hat]
        by_cases htso : w.opcode = .tso
        · obtain rfl := ht htso
          have hbudget : ((b.tweak q b.maxTso i).wrap cfg).maxTso = (b.wrap cfg).maxTso := rfl
          simp only [if_pos htso, hbudget]
          split
          · rfl
          · have hpoint := Build.point_tweak (b := { b.wrap cfg with
              maxTso := (b.wrap cfg).maxTso - sg.length.toNat }) ho
                ((b.wrap cfg).maxTso - sg.length.toNat) i sg
            exact (congrArg (outcome ∘ dataLoop cfg w sgs) hpoint).trans
              (ih (.inl rfl) fun _ => rfl)
        · simp only [if_neg htso]
          have hpoint := Build.point_tweak (b := b.wrap cfg) ho t i sg
          exact (congrArg (outcome ∘ dataLoop cfg w sgs) hpoint).trans (ih (.inl rfl) ht)

theorem inlLoop_zeros {inl : ℕ} (hz : ∀ z ∈ zs, z.length = 0) (hw : wqe ≤ cfg.qend)
    (hi : inl ≤ cfg.maxInlineData) :
    inlLoop cfg ram (zs ++ sgs) 0 m wqe inl = inlLoop cfg ram sgs 0 m wqe inl := by
  induction zs with
  | nil => rfl
  | cons z zs ih =>
    have hz0 : z.length = 0 := hz z (by simp)
    have hadv : cfg.advance wqe 0 = wqe := if_neg (by omega)
    rw [cons_append, inlLoop]
    simp only [hz0, UInt32.toNat_zero, Nat.lt_irrefl, if_false, Nat.sub_zero, Nat.add_zero]
    rw [if_neg (by omega), if_neg (by omega), hadv]
    exact (congrArg (fun m => inlLoop cfg ram (zs ++ sgs) 0 m wqe inl) putWrap_nil).trans
      (ih fun z' h' => hz z' (by simp [h']))

theorem inlLoop_left (hs : Sound w p) (hw : p.offset ≠ 0 ∨ wqe ≤ cfg.qend) :
    inlLoop cfg ram (w.sgList.drop p.index) p.offset m wqe 0 =
      inlLoop cfg ram (w.left p) p.offset m wqe 0 := by
  by_cases ho : p.offset = 0
  · have hsplit := (takeWhile_append_dropWhile (p := fun sg : Sge => decide (sg.length = 0))
      (l := w.sgList.drop p.index)).symm
    rw [ho]
    conv_lhs => rw [hsplit]
    exact inlLoop_zeros (fun z hz => by simpa using mem_takeWhile_imp hz)
      (hw.resolve_left (by simp [ho])) (Nat.zero_le _)
  · rw [hs.resolve_left ho]

theorem sound_of_inlLoop
    (h : inlLoop cfg ram (w.sgList.drop p.index) p.offset m wqe 0 = .ok (m', n)) : Sound w p := by
  by_cases ho : p.offset = 0
  · exact .inl ho
  · refine .inr ?_
    unfold SendWr.left
    cases hd : w.sgList.drop p.index with
    | nil => rfl
    | cons sg sgs =>
      have hne : sg.length ≠ 0 := by
        intro h0
        rw [hd, inlLoop, if_pos (by rw [h0, UInt32.toNat_zero]; omega)] at h
        cases h
      simp [hne]

theorem inlLoop_alike (hal : Alike w p q) (hin : w.sendFlags.inline = true) (hq : Sound w q)
    (hw : p.index = q.index ∨ wqe ≤ cfg.qend)
    (h : inlLoop cfg ram (w.sgList.drop p.index) p.offset m wqe 0 = .ok (m', n)) :
    inlLoop cfg ram (w.sgList.drop q.index) q.offset m wqe 0 = .ok (m', n) := by
  have hp := sound_of_inlLoop h
  have hoff : p.offset = q.offset ∨ w.left q = [] := by
    have := hal.offset
    simp only [hin, Bool.true_eq_false, and_false, or_false] at this
    exact this
  rcases hw with hidx | hw
  · by_cases ho : p.offset = q.offset
    · rwa [hidx, ho] at h
    · -- an offset that is not zero belongs to an SGE, but none is left
      have hnil := hoff.resolve_left ho
      have hdrop : w.sgList.drop q.index = [] := by
        rcases hp with hp | hp
        · exact (hq.resolve_left (by omega)).symm.trans hnil
        · rw [← hidx, ← hp, hal.left, hnil]
      rw [hidx, hdrop] at h
      rwa [hdrop]
  · rw [inlLoop_left hp (.inr hw), hal.left] at h
    rw [inlLoop_left hq (.inr hw)]
    rcases hoff with ho | hnil
    · rwa [← ho]
    · rw [hnil] at h ⊢
      exact h

theorem sound_of_dataSegs (h : dataSegs cfg ram w x = .ok y) (hin : w.sendFlags.inline = true)
    (hne : w.sgList ≠ []) : Sound w x.sg := by
  unfold dataSegs setDataInlSeg at h
  rw [if_pos ⟨hin, hne⟩] at h
  cases hl : inlLoop cfg ram (w.sgList.drop x.sg.index) x.sg.offset x.mem (x.seg + 4) 0 with
  | error e => simp [hl] at h
  | ok r => exact sound_of_inlLoop hl

theorem dataSegs_alike (h : dataSegs cfg ram w x = .ok y) (hal : Alike w x.sg q)
    (hq : w.sendFlags.inline = true → w.sgList ≠ [] → Sound w q)
    (ht : w.opcode = .tso → t = x.maxTso)
    (hw : w.sendFlags.inline = true → x.sg.index = q.index ∨ x.seg + 4 ≤ cfg.qend) :
    outcome (dataSegs cfg ram w (x.tweak q t i)) = outcome (.ok y) := by
  unfold dataSegs at h ⊢
  by_cases hin : w.sendFlags.inline = true ∧ w.sgList ≠ []
  · rw [if_pos hin] at h ⊢
    unfold setDataInlSeg at h ⊢
    cases hl : inlLoop cfg ram (w.sgList.drop x.sg.index) x.sg.offset x.mem (x.seg + 4) 0 with
    | error e => simp [hl] at h
    | ok r =>
      obtain ⟨m, n⟩ := r
      have hl' : inlLoop cfg ram (w.sgList.drop (x.tweak q t i).sg.index) (x.tweak q t i).sg.offset
          (x.tweak q t i).mem ((x.tweak q t i).seg + 4) 0 = .ok (m, n) :=
        inlLoop_alike hal hin.1 (hq hin.1 hin.2) (hw hin.1) hl
      simp only [hl] at h
      simp only [hl']
      split_ifs at h ⊢ <;>
      · cases h
        rfl
  · rw [if_neg hin] at h ⊢
    have hoff : q.offset = x.sg.offset ∨ w.left q = [] ∨ w.opcode.isAtomic = true :=
      hal.offset.imp Eq.symm (Or.imp_right And.left)
    calc outcome (dataLoop cfg w (w.sgList.drop q.index) (x.tweak q t i))
      _ = outcome (dataLoop cfg w (w.left q) (x.tweak q t i)) := dataLoop_left
      _ = outcome (dataLoop cfg w (w.left q) x) := dataLoop_tweak hoff ht
      _ = outcome (dataLoop cfg w (w.sgList.drop x.sg.index) x) := by
        rw [← hal.left, dataLoop_left]
      _ = outcome (.ok y) := congrArg outcome h

end

end Fusa.Driver.Sq

import Fusa.Driver.GatherPos

/-! A chain of work requests and the same work requests posted with one call each. -/
namespace Fusa.Driver.Sq
open Bytes

section
variable (cfg : Cfg) (ram : Ram)

/-- The `DS * 16` bytes of the WQE that the variables are left from. -/
def image (m : Mem) (l : Locals) : List UInt8 := slice (view m cfg.qend l.ctrl) 0 (16 * l.size)

def wqes (qp : Qp) (nreq : ℕ) (l : Locals) : List SendWr → List (List UInt8)
  | [] => []
  | w :: chain =>
    match postOne cfg ram qp nreq l w with
    | .error _ => []
    | .ok (qp, l) => image cfg qp.mem l :: wqes qp (nreq + 1) l chain

/-- One call of `_mlx5_post_send` for each work request, unless one of them fails. -/
def postEach (qp : Qp) : List SendWr → Option (Qp × List (List UInt8))
  | [] => some (qp, [])
  | w :: chain =>
    match postSend cfg ram qp [w] with
    | (_, some _) => none
    | (qp', none) => (postEach qp' chain).map fun r =>
        (r.1, image cfg (walk cfg ram qp [w]).qp.mem (walk cfg ram qp [w]).locals :: r.2)

/-- What is compared besides the WQEs. -/
structure SameBooks (qp qp' : Qp) : Prop where
  wrid : qp.wrid = qp'.wrid
  wqeHead : qp.wqeHead = qp'.wqeHead
  wrData : qp.wrData = qp'.wrData
  head : qp.head = qp'.head
  curPost : qp.curPost = qp'.curPost
  fmCache : qp.fmCache = qp'.fmCache

/-- Posting the chain leaves what posting its work requests one by one leaves. -/
def OneByOne (qp : Qp) (chain : List SendWr) : Prop :=
  ∃ qp', postEach cfg ram qp chain = some (qp', wqes cfg ram qp 0 (.init qp.fmCache) chain) ∧
    SameBooks (postSend cfg ram qp chain).1 qp'

/-- Where the loop comes to `w` with the place `p`, it gathers what it gathers from the start. -/
def Harmless (w : SendWr) (p : SgCopyPtr) : Prop :=
  cfg.aims w ∨ Alike w (cfg.aim w p) (cfg.aim w ⟨0, 0⟩)

/-- The queue pair of the one-by-one calls goes abreast with the chain. -/
structure Abreast (qp : Qp) (nreq : ℕ) (l : Locals) (qp' : Qp) : Prop where
  mem : qp'.mem = qp.mem
  wrid : qp'.wrid = qp.wrid
  wqeHead : qp'.wqeHead = qp.wqeHead
  wrData : qp'.wrData = qp.wrData
  head : qp'.head = qp.head + UInt32.ofNat nreq
  tail : qp'.tail = qp.tail
  curPost : qp'.curPost = qp.curPost
  fmCache : qp'.fmCache = l.nextFence

structure Tame (l : Locals) : Prop where
  still : ¬ cfg.moves → l.sg = ⟨0, 0⟩
  budget : cfg.qpType ≠ .rawPacket → l.maxTso = 0
  offset : l.sg.offset ≤ 18

end

section
variable {cfg : Cfg} {ram : Ram} {qp qp' : Qp} {nreq : ℕ} {l : Locals} {w : SendWr} {b x y : Build}

theorem tame_init (f : UInt8) : Tame cfg (.init f) := ⟨fun _ => rfl, fun _ => rfl, Nat.zero_le _⟩

section
variable (h : Abreast qp nreq l qp')
include h

theorem Abreast.check_eq : check cfg qp' 0 w = check cfg qp nreq w := by
  have hov : wqOverflow cfg qp' 0 = wqOverflow cfg qp nreq := by
    unfold wqOverflow
    rw [h.head, h.tail, show UInt32.ofNat 0 = 0 from rfl, UInt32.add_zero, UInt32.sub_eq_add_neg,
      UInt32.sub_eq_add_neg, UInt32.add_assoc, UInt32.add_assoc,
      UInt32.add_comm (UInt32.ofNat nreq)]
  unfold check
  rw [hov]

theorem Abreast.start_eq :
    start cfg qp' (.init qp'.fmCache) w = (start cfg qp l w).tweak ⟨0, 0⟩ 0 false := by
  unfold start
  rw [h.mem, h.curPost, h.fmCache]
  rfl

theorem Abreast.finish_eq {y' : Build} (ho : outcome (.ok y') = outcome (.ok y)) :
    Abreast (finish cfg qp nreq w y) (nreq + 1) y.toLocals
      (Walk.out cfg ⟨finish cfg qp' 0 w y', 1, y'.toLocals, none⟩) ∧
    image cfg (finish cfg qp' 0 w y').mem y'.toLocals =
      image cfg (finish cfg qp nreq w y).mem y.toLocals := by
  simp only [outcome, Option.some.injEq, Prod.mk.injEq] at ho
  obtain ⟨hm, hs, hc, hf, hd⟩ := ho
  have hctrl : ctrlEnd cfg qp'.curPost w.opcode.mlx5 y' =
      ctrlEnd cfg qp.curPost w.opcode.mlx5 y := by
    unfold ctrlEnd
    rw [h.curPost, hm, hs, hc]
  constructor
  · simp only [Walk.out, postSendDb, finish, store, Nat.one_ne_zero, if_false]
    refine ⟨hctrl, ?_, ?_, ?_, ?_, h.tail, ?_, hf⟩
    · rw [h.wrid, h.curPost]
    · rw [h.wqeHead, h.curPost, h.head, show UInt32.ofNat 0 = 0 from rfl, UInt32.add_zero]
    · rw [h.wrData, h.curPost, hd]
    · have hhead : qp'.head + UInt32.ofNat 1 = qp.head + UInt32.ofNat (nreq + 1) := by
        rw [h.head, UInt32.add_assoc, ← UInt32.ofNat_add]
      exact hhead
    · rw [h.curPost, hs]
  · simp only [image, finish, store, hctrl, hs, hc]

end

theorem dataLoop_locals {sgs : List Sge} (h : dataLoop cfg w sgs x = .ok y) :
    y.sg.index = x.sg.index ∧ (y.sg.offset = x.sg.offset ∨ y.sg.offset = 0) ∧
      y.maxTso ≤ x.maxTso := by
  induction sgs generalizing x with
  | nil =>
    cases h
    exact ⟨rfl, .inl rfl, Nat.le_refl _⟩
  | cons sg sgs ih =>
    simp only [dataLoop] at h
    split_ifs at h
    · have hi := ih h
      exact hi
    · obtain ⟨hi, ho, ht⟩ := ih h
      exact ⟨hi, .inr (ho.elim id id), ht⟩
    · obtain ⟨hi, ho, ht⟩ := ih h
      exact ⟨hi, .inr (ho.elim id id), ht.trans (Nat.sub_le _ _)⟩
    · obtain ⟨hi, ho, ht⟩ := ih h
      exact ⟨hi, .inr (ho.elim id id), ht⟩

theorem dataSegs_locals (h : dataSegs cfg ram w x = .ok y) :
    y.sg.index = x.sg.index ∧ (y.sg.offset = x.sg.offset ∨ y.sg.offset = 0) ∧
      y.maxTso ≤ x.maxTso := by
  unfold dataSegs at h
  split at h
  · unfold setDataInlSeg at h
    split at h
    · cases h
    · split at h <;>
      · cases h
        exact ⟨rfl, .inl rfl, Nat.le_refl _⟩
  · exact dataLoop_locals h

theorem SendWr.bump_offset {p : SgCopyPtr} (h : p.offset ≤ 18) : (w.bump p).offset ≤ 18 := by
  have hn : w.ipoibHeader w.firstSge.length ≤ 18 := by
    unfold SendWr.ipoibHeader
    split <;> omega
  unfold SendWr.bump
  split
  · exact h
  · exact hn

theorem ethSegs_offset (h : ethSegs cfg ram w b = .ok x) : x.sg.offset ≤ 18 := by
  unfold ethSegs at h
  cases he : copyEthInlineHeaders ram cfg.ethMinInlineSize (w.sgList.map Sge.buf) b.mem b.seg with
  | error e => simp [he] at h
  | ok r =>
    rw [he] at h
    cases h
    obtain ⟨done, last, tail, copied, hs, -, hp⟩ :=
      copyEthInlineHeaders_ok cfg.ethMinInlineSize_eq he
    have hsize := hs.size
    have h18 := cfg.ethMinInlineSize_eq
    change r.2.offset ≤ 18
    rw [hp]
    split <;> simp
    omega

theorem headerSegs_offset (h : headerSegs cfg ram w b = .ok x) (hb : b.sg.offset ≤ 18) :
    x.sg.offset ≤ 18 := by
  by_cases ha : cfg.aims w
  · obtain ⟨hq, ho⟩ := ha
    simp only [headerSegs, hq, rawSegs, if_neg ho] at h
    split at h
    · cases h
    · exact ethSegs_offset h
  · rw [(headerSegs_passes h).sg ha]
    unfold Cfg.aim
    split
    · exact SendWr.bump_offset hb
    · exact hb

theorem build_ok (h : build cfg ram qp l w = .ok y) :
    ∃ x, headerSegs cfg ram w (start cfg qp l w) = .ok x ∧ dataSegs cfg ram w x = .ok y := by
  unfold build at h
  cases hh : headerSegs cfg ram w (start cfg qp l w) with
  | error e => simp [hh, bind, Except.bind] at h
  | ok x => exact ⟨x, rfl, by rwa [hh] at h⟩

theorem Tame.build (hl : Tame cfg l) (h : build cfg ram qp l w = .ok y) : Tame cfg y.toLocals := by
  obtain ⟨x, hh, h⟩ := build_ok h
  have hp := headerSegs_passes hh
  have hxo := headerSegs_offset hh hl.offset
  obtain ⟨hi, ho, ht⟩ := dataSegs_locals h
  refine ⟨fun hm => ?_, fun hq => ?_, by omega⟩
  · have hna : ¬ cfg.aims w := fun ha => hm (.inr ha.1)
    have hx : x.sg = ⟨0, 0⟩ := by
      rw [hp.sg hna, Cfg.aim, if_neg fun hu => hm (.inl hu)]
      exact hl.still hm
    rw [hx] at hi ho
    cases hy : y.sg with
    | mk index offset =>
      rw [hy] at hi ho
      simp only [or_self] at hi ho
      rw [hi, ho]
  · have hx : x.maxTso = 0 := by
      rw [hp.maxTso, Cfg.budget, if_neg fun hr => hq hr.1]
      exact hl.budget hq
    omega

theorem postSendUnderlay_sound (h : postSendUnderlay cfg ram w b = .ok x) :
    Sound w (w.bump ⟨0, 0⟩) := by
  simp only [postSendUnderlay] at h
  split_ifs at h with _ _ hlt heq
  · refine .inl ?_
    rw [SendWr.bump, if_pos heq]
  · refine .inr ?_
    have hne : w.firstSge.length ≠ 0 := by
      intro h0
      rw [h0] at hlt heq
      simp only [UInt32.toNat_zero] at hlt heq
      omega
    rw [SendWr.bump, if_neg heq]
    unfold SendWr.left
    cases hl : w.sgList with
    | nil => rfl
    | cons sg sgs =>
      have hsg : sg.length ≠ 0 := by simpa [SendWr.firstSge, hl] using hne
      simp [hsg]

theorem postSendUnderlay_seg (h : postSendUnderlay cfg ram w b = .ok x) : x.seg = b.seg + 48 ∧
    x.size = b.size + 3 ∧ x.ctrl = b.ctrl := by
  simp only [postSendUnderlay] at h
  split_ifs at h <;>
  · cases h
    exact ⟨rfl, rfl, rfl⟩

theorem start_aligned : Aligned cfg (start cfg qp l w) ∧
    (start cfg qp l w).seg + 48 ≤ cfg.qend := by
  have hlt : qp.curPost % cfg.wqeCnt < cfg.wqeCnt := Nat.mod_lt _ cfg.wqeCnt_pos
  have hslot : (start cfg qp l w).ctrl = 64 * (qp.curPost % cfg.wqeCnt) := rfl
  have hseg : (start cfg qp l w).seg = 64 * (qp.curPost % cfg.wqeCnt) + 16 := rfl
  have hsize : (start cfg qp l w).size = 1 := rfl
  have hend : cfg.qend = 64 * cfg.wqeCnt := rfl
  refine ⟨⟨by omega, by omega, by omega, ?_⟩, by omega⟩
  rw [hslot, hseg, hsize]

theorem udSegs_aligned (hu : cfg.underlay = true)
    (h : udSegs cfg ram w (start cfg qp l w) = .ok x) :
    (Aligned cfg x ∧ x.ctrl = cfg.slot qp.curPost ∧ 1 ≤ x.size) ∧ x.seg + 16 ≤ cfg.qend := by
  obtain ⟨hs, hroom⟩ : Aligned cfg (start cfg qp l w) ∧ _ := start_aligned
  simp only [udSegs, hu, if_true] at h
  obtain ⟨hseg, hsize, hctrl⟩ := postSendUnderlay_seg h
  set c := (start cfg qp l w).emit (setDatagramSeg (start cfg qp l w).mem
    (start cfg qp l w).seg w.ud) 48 with hc
  have hca : Aligned cfg c := hs.step (n := 3) rfl rfl rfl hroom
  have hcs : c.seg % 64 = 0 := by
    have : c.seg = 64 * (qp.curPost % cfg.wqeCnt) + 16 + 48 := rfl
    omega
  have hend : cfg.qend = 64 * cfg.wqeCnt := rfl
  have hpos := cfg.wqeCnt_pos
  have hcw : (c.wrap cfg).seg + 64 ≤ cfg.qend := by
    have hle := hca.le
    simp only [Build.wrap]
    split <;> omega
  exact ⟨⟨hca.wrap.1.step (n := 3) hctrl hseg hsize (by omega), hctrl, by omega⟩, by omega⟩

theorem headerSegs_underlay (hu : cfg.qpType = .ud ∧ cfg.underlay = true) :
    headerSegs cfg ram w b = udSegs cfg ram w b := by
  simp [headerSegs, hu.1]

theorem aim_sound (h : headerSegs cfg ram w b = .ok x) : Sound w (cfg.aim w ⟨0, 0⟩) := by
  by_cases hu : cfg.qpType = .ud ∧ cfg.underlay = true
  · rw [Cfg.aim, if_pos hu]
    rw [headerSegs_underlay hu] at h
    simp only [udSegs, hu.2, if_true] at h
    exact postSendUnderlay_sound h
  · rw [Cfg.aim, if_neg hu]
    exact .inl rfl

theorem Tame.budget_eq (hl : Tame cfg l) (ho : w.opcode = .tso)
    (h : headerSegs cfg ram w (start cfg qp l w) = .ok x) : x.maxTso = cfg.budget w 0 := by
  rw [(headerSegs_passes h).maxTso]
  unfold Cfg.budget
  by_cases hr : cfg.qpType = .rawPacket ∧ w.opcode = .tso
  · rw [if_pos hr, if_pos hr]
  · rw [if_neg hr, if_neg hr]
    exact hl.budget fun hq => hr ⟨hq, ho⟩

theorem aim_room (hl : Tame cfg l) (ha : ¬ cfg.aims w)
    (h : headerSegs cfg ram w (start cfg qp l w) = .ok x) (hal : Alike w x.sg (cfg.aim w ⟨0, 0⟩))
    (hin : w.sendFlags.inline = true) :
    x.sg.index = (cfg.aim w ⟨0, 0⟩).index ∨ x.seg + 4 ≤ cfg.qend := by
  by_cases hu : cfg.qpType = .ud ∧ cfg.underlay = true
  · rw [headerSegs_underlay hu] at h
    have hroom := (udSegs_aligned hu.2 h).2
    exact .inr (by omega)
  · refine .inl ?_
    by_cases hq : cfg.qpType = .rawPacket
    · have ho : w.opcode = .tso := by
        by_contra ho
        exact ha ⟨hq, ho⟩
      exact hal.tso ho hin
    · have hx : x.sg = cfg.aim w l.sg := (headerSegs_passes h).sg ha
      rw [hx, hl.still fun hm => hm.elim hu hq]

theorem Abreast.build_eq (hab : Abreast qp nreq l qp') (hl : Tame cfg l)
    (h : build cfg ram qp l w = .ok y) (hw : Harmless cfg w l.sg) :
    outcome (build cfg ram qp' (.init qp'.fmCache) w) = outcome (.ok y) := by
  obtain ⟨x, hh, h⟩ := build_ok h
  have hp := headerSegs_passes hh
  unfold Sq.build
  rw [hab.start_eq]
  by_cases ha : cfg.aims w
  · rw [hp.aims ha]
    exact dataSegs_alike h ⟨rfl, .inl rfl, fun _ _ => rfl⟩ (sound_of_dataSegs h)
      (fun ho => absurd ho ha.2) fun _ => .inl rfl
  · have hal : Alike w x.sg (cfg.aim w ⟨0, 0⟩) := hp.sg ha ▸ hw.resolve_left ha
    rw [hp.tweak ha]
    exact dataSegs_alike h hal (fun _ _ => aim_sound hh) (fun ho => (hl.budget_eq ho hh).symm)
      fun hin => aim_room hl ha hh hal hin

variable {r : Qp × Locals} {chain : List SendWr}

theorem postOne_ok : postOne cfg ram qp nreq l w = .ok r ↔
    check cfg qp nreq w = none ∧ ∃ y, build cfg ram qp l w = .ok y ∧
      r = (finish cfg qp nreq w y, y.toLocals) := by
  unfold postOne
  cases check cfg qp nreq w with
  | some e => simp
  | none =>
    cases build cfg ram qp l w with
    | error e => simp
    | ok y => simp [eq_comm]

theorem walk_singleton (h : postOne cfg ram qp 0 (.init qp.fmCache) w = .ok r) :
    walk cfg ram qp [w] = ⟨r.1, 1, r.2, none⟩ := by
  simp only [walk, postLoop, h]

theorem Abreast.post (hab : Abreast qp nreq l qp') (hl : Tame cfg l)
    (h : postOne cfg ram qp nreq l w = .ok r) (hw : Harmless cfg w l.sg) :
    ∃ r', postOne cfg ram qp' 0 (.init qp'.fmCache) w = .ok r' ∧
      Abreast r.1 (nreq + 1) r.2 (Walk.out cfg ⟨r'.1, 1, r'.2, none⟩) ∧
      image cfg r'.1.mem r'.2 = image cfg r.1.mem r.2 := by
  obtain ⟨hc, y, hy, rfl⟩ := postOne_ok.mp h
  have ho := hab.build_eq hl hy hw
  cases hy' : build cfg ram qp' (.init qp'.fmCache) w with
  | error e => simp [hy', outcome] at ho
  | ok y' =>
    rw [hy'] at ho
    exact ⟨_, postOne_ok.mpr ⟨hab.check_eq.trans hc, y', hy', rfl⟩, hab.finish_eq ho⟩

theorem Tame.post (hl : Tame cfg l) (h : postOne cfg ram qp nreq l w = .ok r) : Tame cfg r.2 := by
  obtain ⟨-, y, hy, rfl⟩ := postOne_ok.mp h
  exact hl.build hy

/-- The loop comes to each work request of the chain with a harmless place. -/
def FreshPlaces (cfg : Cfg) (ram : Ram) (qp : Qp) (nreq : ℕ) (l : Locals)
    (chain : List SendWr) : Prop :=
  ∀ pre w post, chain = pre ++ w :: post →
    Harmless cfg w (postLoop cfg ram qp nreq l pre).locals.sg

theorem freshPlaces_cons (h : postOne cfg ram qp nreq l w = .ok r) :
    FreshPlaces cfg ram qp nreq l (w :: chain) ↔
      Harmless cfg w l.sg ∧ FreshPlaces cfg ram r.1 (nreq + 1) r.2 chain := by
  constructor
  · intro hf
    refine ⟨hf [] w chain rfl, fun pre v post he => ?_⟩
    have := hf (w :: pre) v post (he ▸ rfl)
    rwa [postLoop, h] at this
  · rintro ⟨hw, hf⟩ pre v post he
    cases pre with
    | nil =>
      obtain ⟨rfl, rfl⟩ := List.cons.inj he
      exact hw
    | cons u pre =>
      obtain ⟨rfl, rfl⟩ := List.cons.inj he
      rw [postLoop, h]
      exact hf pre v post rfl

theorem Abreast.run (hab : Abreast qp nreq l qp') (hl : Tame cfg l)
    (h : (postLoop cfg ram qp nreq l chain).err = none) (hf : FreshPlaces cfg ram qp nreq l chain) :
    ∃ qp'', postEach cfg ram qp' chain = some (qp'', wqes cfg ram qp nreq l chain) ∧
      Abreast (postLoop cfg ram qp nreq l chain).qp (postLoop cfg ram qp nreq l chain).nreq
        (postLoop cfg ram qp nreq l chain).locals qp'' := by
  induction chain generalizing qp nreq l qp' with
  | nil => exact ⟨qp', rfl, hab⟩
  | cons w chain ih =>
    cases ho : postOne cfg ram qp nreq l w with
    | error e => simp [postLoop, ho] at h
    | ok r =>
      obtain ⟨hw, hf⟩ := (freshPlaces_cons ho).mp hf
      obtain ⟨r', ho', hab', himg⟩ := hab.post hl ho hw
      simp only [postLoop, ho] at h ⊢
      obtain ⟨qp'', he, hend⟩ := ih hab' (hl.post ho) h hf
      refine ⟨qp'', ?_, hend⟩
      have hp : postSend cfg ram qp' [w] = (Walk.out cfg ⟨r'.1, 1, r'.2, none⟩, none) := by
        simp only [postSend, walk_singleton ho', Option.map_none]
      simp only [postEach, hp, he, walk_singleton ho', Option.map_some, himg, wqes, ho]

theorem abreast_init : Abreast qp 0 (.init qp.fmCache) qp :=
  ⟨rfl, rfl, rfl, rfl, (UInt32.add_zero _).symm, rfl, rfl, rfl⟩

theorem Abreast.sameBooks {r : Walk} (hab : Abreast r.qp r.nreq r.locals qp') :
    SameBooks (r.out cfg) qp' := by
  unfold Walk.out postSendDb
  split
  · rename_i h0
    refine ⟨hab.wrid.symm, hab.wqeHead.symm, hab.wrData.symm, ?_, hab.curPost.symm,
      hab.fmCache.symm⟩
    rw [hab.head, h0]
    exact (UInt32.add_zero _).symm
  · exact ⟨hab.wrid.symm, hab.wqeHead.symm, hab.wrData.symm, hab.head.symm, hab.curPost.symm,
      hab.fmCache.symm⟩

end

end Fusa.Driver.Sq

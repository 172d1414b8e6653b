import Fusa.Driver.SqSize

/-! Where builders and setters store: within the WQE that `cur_ctrl` points to. -/
namespace Fusa.Driver.Sq
open Bytes Nat

namespace Ex

/-- The header of the WQE ends where its data is to go, and leaves room for the data. -/
structure Aimed (cfg : Cfg) (overhead : ℕ) (x : Ex) : Prop where
  lt : x.curData < cfg.qend
  units : x.curData % 16 = 0
  place : x.curData % cfg.qend = (x.curCtrl + 16 * x.curSize) % cfg.qend
  pos : 1 ≤ x.curSize
  le : 16 * x.curSize ≤ overhead

/-- The queue changes within `bbs` building blocks from `cur_ctrl` on. -/
structure Stored (cfg : Cfg) (bbs : ℕ) (x x' : Ex) : Prop where
  mem : Kept cfg.qend x.curCtrl (64 * bbs) x.qp.mem x'.qp.mem
  ctrl : x'.curCtrl = x.curCtrl
  wqeHead : x'.qp.wqeHead = x.qp.wqeHead
  err : x'.err = none → x.err = none

structure Opened (cfg : Cfg) (overhead : ℕ) (x x' : Ex) : Prop where
  err : x'.err = x.err
  nreq : x'.nreq = x.nreq + 1
  post : x'.qp.curPost = x.qp.curPost
  aimed : Aimed cfg overhead x'
  setters : cfg.qpType.twoSetters → x'.curSettersCnt = 0
  eth : cfg.qpType = .rawPacket → cfg.ethMinInlineSize ≠ 0 → x'.curEth = some (x'.curCtrl + 16)

structure Closed (bbs : ℕ) (x x' : Ex) : Prop where
  err : x'.err = x.err
  nreq : x'.nreq = x.nreq + 1
  post : ∃ k, 1 ≤ k ∧ k ≤ bbs ∧ x'.qp.curPost = x.qp.curPost + k

structure Failed (x x' : Ex) : Prop where
  err : x'.err ≠ none
  nreq : x'.nreq = x.nreq
  post : x'.qp.curPost = x.qp.curPost

end Ex

def Builder.takes (cfg : Cfg) (flags : SendFlags) (b : Builder) : Bool :=
  !b.isUmr && !(cfg.qpType = .rawPacket && flags.ipCsum && !cfg.csumRawOverEth)

section
variable {cfg : Cfg} {ram : Ram} {x x' x'' : Ex} {p o n bbs overhead : ℕ} {m m' : Mem}
  {xs : List UInt8} {e : Errno}

theorem Cfg.slot_units (cfg : Cfg) (p : ℕ) : cfg.slot p % 64 = 0 := by
  unfold Cfg.slot
  omega

theorem Cfg.slot_eq (cfg : Cfg) (p : ℕ) : cfg.slot p = 64 * p % cfg.qend := by
  rw [Cfg.slot, Cfg.qend, mul_mod_mul_left]

theorem Cfg.wrapped_lt (cfg : Cfg) {a : ℕ} (h : a ≤ cfg.qend) : cfg.wrapped a < cfg.qend := by
  have := cfg.qend_pos
  unfold Cfg.wrapped
  split <;> omega

theorem Cfg.wrapped_mod (cfg : Cfg) (a : ℕ) : cfg.wrapped a % cfg.qend = a % cfg.qend := by
  unfold Cfg.wrapped
  split
  · rename_i h
    rw [h, zero_mod, mod_self]
  · rfl

theorem Cfg.wrapped_units (cfg : Cfg) {a : ℕ} (h : a % 16 = 0) : cfg.wrapped a % 16 = 0 := by
  unfold Cfg.wrapped
  split
  · rfl
  · exact h

theorem Sized.bbs_pos (h : Sized cfg overhead bbs) : 1 ≤ bbs := by
  have := h.inl
  omega

theorem kept_ctrl (hb : 1 ≤ bbs) (ho : o + xs.length ≤ 64) :
    Kept cfg.qend (cfg.slot p) (64 * bbs) m (put m (cfg.slot p + o) xs) :=
  Kept.put (by have := cfg.slot_le p; omega) (o := o) (by omega) rfl

namespace Ex

theorem fail_ne_none : (x.fail e).err ≠ none := by
  cases h : x.err <;> simp [fail, h]

theorem Stored.trans (h : Stored cfg bbs x x') (h' : Stored cfg bbs x' x'') :
    Stored cfg bbs x x'' :=
  ⟨h.mem.trans (h.ctrl ▸ h'.mem), h'.ctrl.trans h.ctrl,
    h'.wqeHead.trans h.wqeHead, fun he => h.err (h'.err he)⟩

theorem stored_setMem (h : Kept cfg.qend x.curCtrl (64 * bbs) x.qp.mem m) :
    Stored cfg bbs x (x.setMem m) := ⟨h, rfl, rfl, id⟩

theorem stored_fail : Stored cfg bbs x (x.fail e) :=
  ⟨.refl, rfl, rfl, fun h => absurd h fail_ne_none⟩

theorem stored_setImm (hp : x.curCtrl = cfg.slot p) (hb : 1 ≤ bbs) (imm : UInt32) :
    Stored cfg bbs x (x.setImm imm) := by
  refine stored_setMem ?_
  rw [hp]
  exact kept_ctrl hb (by simp)

theorem stored_finalize (hp : x.curCtrl = cfg.slot p) (hb : 1 ≤ bbs) :
    Stored cfg bbs x (commonWqeFinalize cfg x) := by
  refine ⟨?_, rfl, rfl, id⟩
  simp only [commonWqeFinalize, hp]
  split
  · exact (kept_ctrl hb (by simp)).trans (kept_ctrl hb (by simp))
  · exact kept_ctrl hb (by simp)

section segments
variable (hp : x.curCtrl = cfg.slot p)
include hp

theorem sendWrSend_spec (bbs : ℕ) (hle : 16 + cfg.qpType.sendSegSz ≤ overhead) :
    Stored cfg bbs x (sendWrSend cfg x) ∧ Aimed cfg overhead (sendWrSend cfg x) := by
  have hslot := cfg.slot_le p
  have hu := cfg.slot_units p
  have hseg : cfg.qpType.sendSegSz ≤ 48 ∧ cfg.qpType.sendSegSz % 16 = 0 := by
    cases cfg.qpType <;> decide
  have h16 : 16 * ((16 + cfg.qpType.sendSegSz) / 16) = 16 + cfg.qpType.sendSegSz := by omega
  refine ⟨⟨.refl, rfl, rfl, id⟩, cfg.wrapped_lt (by omega), cfg.wrapped_units (by omega), ?_,
    ?_, ?_⟩
  · simp only [sendWrSend, aim]
    rw [cfg.wrapped_mod, h16, add_assoc]
  all_goals
    simp only [sendWrSend, aim]
    omega

theorem raddrSeg_spec : raddrSeg cfg x + 32 ≤ cfg.qend ∧ raddrSeg cfg x % 16 = 0 ∧
    raddrSeg cfg x % cfg.qend = (x.curCtrl + (16 + cfg.qpType.rdmaSegSz)) % cfg.qend := by
  have hslot := cfg.slot_le p
  have hu := cfg.slot_units p
  have hq : cfg.qend % 64 = 0 := mul_mod_right 64 _
  have hseg : cfg.qpType.rdmaSegSz = 0 ∨ cfg.qpType.rdmaSegSz = 16 ∨
      cfg.qpType.rdmaSegSz = 48 := by
    cases cfg.qpType <;> decide
  refine ⟨?_, cfg.wrapped_units (by omega), ?_⟩
  · unfold raddrSeg Cfg.wrapped
    split <;> omega
  · rw [raddrSeg, cfg.wrapped_mod, add_assoc]

variable (hs : Sized cfg overhead bbs)
include hs

theorem kept_raddrSeg (hle : 32 + cfg.qpType.rdmaSegSz ≤ overhead) (remoteAddr : UInt64)
    (rkey : UInt32) :
    Kept cfg.qend x.curCtrl (64 * bbs) m (setRaddrSeg m (raddrSeg cfg x) remoteAddr rkey) := by
  obtain ⟨-, -, hplace⟩ := raddrSeg_spec hp
  have hslot := cfg.slot_le p
  have hinl := hs.inl
  refine Kept.put (by omega) ?_ hplace
  simp only [List.length_append, length_be32, length_be64]
  omega

theorem sendWrRdma_spec (hle : 32 + cfg.qpType.rdmaSegSz ≤ overhead) (rkey : UInt32)
    (remoteAddr : UInt64) : Stored cfg bbs x (sendWrRdma cfg rkey remoteAddr x) ∧
      Aimed cfg overhead (sendWrRdma cfg rkey remoteAddr x) := by
  obtain ⟨hend, hunits, hplace⟩ := raddrSeg_spec hp
  have hseg : cfg.qpType.rdmaSegSz % 16 = 0 := by
    cases cfg.qpType <;> decide
  have h16 : 16 * ((32 + cfg.qpType.rdmaSegSz) / 16) = 16 + cfg.qpType.rdmaSegSz + 16 := by omega
  refine ⟨⟨kept_raddrSeg hp hs hle _ _, rfl, rfl, id⟩, ?_, ?_, ?_, ?_, ?_⟩ <;>
    simp only [sendWrRdma, aim, setMem]
  · omega
  · omega
  · rw [h16]
    exact place_add hplace 16
  · omega
  · omega

theorem sendWrAtomic_spec (hle : 48 + cfg.qpType.rdmaSegSz ≤ overhead) (rkey : UInt32)
    (remoteAddr compareAdd swap : UInt64) (cmpAndSwp : Bool) :
    Stored cfg bbs x (sendWrAtomic cfg rkey remoteAddr compareAdd swap cmpAndSwp x) ∧
      Aimed cfg overhead (sendWrAtomic cfg rkey remoteAddr compareAdd swap cmpAndSwp x) := by
  obtain ⟨hend, hunits, hplace⟩ := raddrSeg_spec hp
  have hslot := cfg.slot_le p
  have hinl := hs.inl
  have hseg : cfg.qpType.rdmaSegSz % 16 = 0 := by
    cases cfg.qpType <;> decide
  have h16 : 16 * ((48 + cfg.qpType.rdmaSegSz) / 16) = 16 + cfg.qpType.rdmaSegSz + 32 := by omega
  have hatomic : Kept cfg.qend x.curCtrl (64 * bbs)
      (setRaddrSeg x.qp.mem (raddrSeg cfg x) remoteAddr rkey)
      (setAtomicSeg (setRaddrSeg x.qp.mem (raddrSeg cfg x) remoteAddr rkey) (raddrSeg cfg x + 16)
        cmpAndSwp swap compareAdd) := by
    unfold setAtomicSeg
    split <;> refine Kept.put (by omega) ?_ (place_add hplace 16) <;>
      simp only [List.length_append, length_be64] <;> omega
  refine ⟨⟨(kept_raddrSeg hp hs (by omega) _ _).trans hatomic, rfl, rfl, id⟩, ?_, ?_, ?_, ?_,
    ?_⟩ <;> simp only [sendWrAtomic, aim, setMem]
  · exact cfg.wrapped_lt hend
  · exact cfg.wrapped_units (by omega)
  · rw [cfg.wrapped_mod, h16]
    exact place_add hplace 32
  · omega
  · omega

theorem sendWrSendEth_spec (flags : SendFlags)
    (hle : 16 + (16 + cfg.ethMinInlineSize) / 16 * 16 ≤ overhead) :
    Stored cfg bbs x (sendWrSendEth cfg flags x) ∧
      (flags.ipCsum ∧ ¬ cfg.csumRawOverEth → (sendWrSendEth cfg flags x).err ≠ none) ∧
      (¬ (flags.ipCsum ∧ ¬ cfg.csumRawOverEth) →
        Aimed cfg overhead (sendWrSendEth cfg flags x)) := by
  have hslot := cfg.slot_le p
  have hu := cfg.slot_units p
  have hb := hs.bbs_pos
  have hzero : Kept cfg.qend x.curCtrl (64 * bbs) x.qp.mem
      (Bytes.put x.qp.mem (x.curCtrl + 16) (List.replicate 32 0)) := by
    rw [hp]
    exact kept_ctrl hb (by simp)
  have hcsum (m : Mem) : Kept cfg.qend x.curCtrl (64 * bbs) m
      (Bytes.put m (x.curCtrl + 16 + 4) [0xc0]) := by
    rw [hp, add_assoc]
    exact kept_ctrl hb (by simp)
  have heth := cfg.ethMinInlineSize_eq
  by_cases hbad : flags.ipCsum ∧ ¬ cfg.csumRawOverEth
  · simp only [sendWrSendEth, if_pos hbad]
    exact ⟨⟨hzero, rfl, rfl, fun h => absurd h fail_ne_none⟩, fun _ => fail_ne_none,
      fun h => absurd hbad h⟩
  · refine ⟨?_, fun h => absurd h hbad, fun _ => ?_⟩
    · simp only [sendWrSendEth, if_neg hbad]
      split
      · exact ⟨hzero.trans (hcsum _), rfl, rfl, id⟩
      · exact ⟨hzero, rfl, rfl, id⟩
    · simp only [sendWrSendEth, if_neg hbad]
      refine ⟨?_, ?_, ?_, ?_, ?_⟩ <;> simp only [aim]
      · omega
      · omega
      · split <;>
        · simp only [put, setMem]
          congr 1
          omega
      · omega
      · omega

end segments

theorem setUmrMkeySeg_outside {mkey i : ℕ} (type : MwType) (rkey : UInt32) (info : BindInfo)
    (qpn : UInt32) (h : i < mkey ∨ mkey + 64 ≤ i) :
    setUmrMkeySeg m mkey type rkey info qpn i = m i := by
  unfold setUmrMkeySeg
  split
  · rw [put_of_outside (by simp; omega), put_of_outside (by simp; omega)]
  · rw [put_of_outside (by simp; omega), put_of_outside (by simp; omega),
      put_of_outside (by simp; omega), put_of_outside (by simp; omega),
      put_of_outside (by simp; omega)]

/-- A WQE of which `o` bytes are built behind `cur_ctrl`. -/
structure UmrAt (cfg : Cfg) (bbs : ℕ) (x : Ex) (o : ℕ) (b : Build) : Prop where
  mem : Kept cfg.qend x.curCtrl (64 * bbs) x.qp.mem b.mem
  place : b.seg % cfg.qend = (x.curCtrl + o) % cfg.qend
  size : 16 * b.size = o

theorem UmrAt.emit {b : Build} {k : ℕ} (h : UmrAt cfg bbs x o b) (hc : x.curCtrl < cfg.qend)
    (hfit : o + k ≤ 64 * bbs) (hk : k % 16 = 0)
    (hm : ∀ i, i < b.seg ∨ b.seg + k ≤ i → m i = b.mem i) :
    UmrAt cfg bbs x (o + k) (b.emit m k) := by
  have := h.size
  refine ⟨h.mem.trans (Kept.of_outside hc hfit h.place hm), place_add h.place k, ?_⟩
  simp only [Build.emit]
  omega

theorem UmrAt.wrap {b : Build} (h : UmrAt cfg bbs x o b) : UmrAt cfg bbs x o (b.wrap cfg) :=
  ⟨h.mem, (cfg.wrapped_mod b.seg).trans h.place, h.size⟩

theorem setBindWr_spec (hp : x.curCtrl = cfg.slot p) (hfit : 192 ≤ 64 * bbs) (rkey : UInt32)
    (info : BindInfo) :
    (∃ e, setBindWr cfg .type2 rkey info (umrStart x) = .error (e, umrStart x)) ∨
      ∃ b o, setBindWr cfg .type2 rkey info (umrStart x) = .ok b ∧ UmrAt cfg bbs x o b ∧
        16 ≤ o ∧ o ≤ 192 := by
  have hslot := cfg.slot_le p
  have hc : x.curCtrl < cfg.qend := by omega
  have hstart : UmrAt cfg bbs x 16 (umrStart x) := ⟨.refl, rfl, rfl⟩
  have hctrl := (hstart.emit hc (k := 48) (by omega) rfl (m := setUmrControlSeg (umrStart x).mem
    (umrStart x).seg .type2 info) fun i hi => put_of_outside (by simpa using hi)).wrap
  have hmkey := hctrl.emit hc (k := 64) (by omega) rfl fun i hi =>
    setUmrMkeySeg_outside .type2 rkey info cfg.qpNum hi
  unfold setBindWr
  split_ifs
  · exact .inl ⟨_, rfl⟩
  · exact .inr ⟨_, _, rfl, hmkey, by omega, by omega⟩
  · have hdata := hmkey.wrap.emit hc (k := 64) (by omega) rfl (m := setUmrDataSeg _ _ info)
      fun i hi => put_of_outside (by simpa using hi)
    exact .inr ⟨_, _, rfl, hdata, by omega, by omega⟩

theorem Aimed.congr (h : Aimed cfg overhead x) (hc : x'.curCtrl = x.curCtrl := by rfl)
    (hd : x'.curData = x.curData := by rfl) (hs : x'.curSize = x.curSize := by rfl) :
    Aimed cfg overhead x' :=
  ⟨hd ▸ h.lt, hd ▸ h.units, hd ▸ hc ▸ hs ▸ h.place, hs ▸ h.pos, hs ▸ h.le⟩

/-- A builder that takes data waits for a setter; any other closes the request or fails. -/
structure Built (cfg : Cfg) (overhead bbs : ℕ) (flags : SendFlags) (b : Builder) (x y : Ex) :
    Prop where
  stored : Stored cfg bbs x y
  eth : cfg.ethMinInlineSize = 0 → y.curEth = x.curEth
  opened : b.takes cfg flags = true → Opened cfg overhead x y
  ended : b.takes cfg flags = false → Closed bbs x y ∨ Failed x y

variable {b : Builder} {flags : SendFlags}

/-- All data builders but that of a raw packet. -/
theorem built_data (h : Stored cfg bbs x x' ∧ Aimed cfg overhead x')
    (hr : cfg.qpType ≠ .rawPacket) (hu : b.isUmr = false := by rfl) (hy : x'.err = x.err := by rfl)
    (hn : x'.nreq = x.nreq + 1 := by rfl) (hpost : x'.qp.curPost = x.qp.curPost := by rfl)
    (he : x'.curEth = x.curEth := by rfl) (h2 : x'.curSettersCnt = 0 := by rfl) :
    Built cfg overhead bbs flags b x x' :=
  ⟨h.1, fun _ => he, fun _ => ⟨hy, hn, hpost, h.2, fun _ => h2, fun h => absurd h hr⟩,
    fun ht => by simp [Builder.takes, hu, hr] at ht⟩

theorem built_buildUmrWqe (hp : x.curCtrl = cfg.slot p) (hfit : 192 ≤ 64 * bbs)
    (origRkey newRkey : UInt32) (info : BindInfo) (hu : b.isUmr = true := by rfl) :
    Built cfg overhead bbs flags b x (buildUmrWqe cfg origRkey newRkey info x) := by
  have himm := stored_setImm hp (by omega : 1 ≤ bbs) origRkey
  have hp' : (x.setImm origRkey).curCtrl = cfg.slot p := hp
  have built {y : Ex} (hst : Stored cfg bbs x y) (he : y.curEth = x.curEth)
      (hor : Closed bbs x y ∨ Failed x y) : Built cfg overhead bbs flags b x y :=
    ⟨hst, fun _ => he, fun ht => by simp [Builder.takes, hu] at ht, fun _ => hor⟩
  unfold buildUmrWqe
  obtain ⟨e, he⟩ | ⟨b, o, hok, hat, hlo, hhi⟩ := setBindWr_spec hp' hfit newRkey info
  · simp only [he]
    exact built ((himm.trans (stored_setMem .refl)).trans stored_fail) rfl
      (.inr ⟨fail_ne_none, rfl, rfl⟩)
  · simp only [hok]
    have hsize := hat.size
    refine built (himm.trans (Stored.trans ?_ (stored_finalize hp' (by omega)))) rfl
      (.inl ⟨rfl, rfl, (b.size + 3) / 4, by omega, by omega, rfl⟩)
    exact ⟨hat.mem, rfl, rfl, id⟩

theorem built_sendEth (hp : x.curCtrl = cfg.slot p) (hs : Sized cfg overhead bbs)
    (hr : cfg.qpType = .rawPacket) (hle : headSz cfg .send ≤ overhead) :
    Built cfg overhead bbs flags .send x (sendWrSendEth cfg flags x) := by
  simp only [headSz, if_pos hr] at hle
  obtain ⟨hst, hbad, hgood⟩ := sendWrSendEth_spec hp hs flags hle
  refine ⟨hst, fun h0 => ?_, fun ht => ?_, fun ht => ?_⟩
  · unfold sendWrSendEth
    split_ifs <;> rfl
  · have hok : ¬ (flags.ipCsum = true ∧ ¬ cfg.csumRawOverEth = true) := by
      simpa [Builder.takes, Builder.isUmr, hr, imp_iff_not_or] using ht
    have ha := hgood hok
    unfold sendWrSendEth at ha ⊢
    refine ⟨?_, ?_, ?_, ha, fun h2 => ?_, fun _ h0 => ?_⟩
    iterate 3 · split_ifs <;> rfl
    · simp [hr, QpType.twoSetters] at h2
    · simp only [if_neg h0]
      split_ifs <;> rfl
  · have hko : flags.ipCsum = true ∧ ¬ cfg.csumRawOverEth = true := by
      simpa [Builder.takes, Builder.isUmr, hr] using ht
    refine .inr ⟨hbad hko, ?_, ?_⟩ <;> simp only [sendWrSendEth, if_pos hko] <;> rfl

theorem segments_spec (hp : x.curCtrl = cfg.slot p) (hs : Sized cfg overhead bbs)
    {b : Builder} (hb : cfg.qpType.builds b.opcode = true) (hle : headSz cfg b.opcode ≤ overhead)
    (flags : SendFlags) : Built cfg overhead bbs flags b x (segments cfg flags b x) := by
  have hinl := hs.inl
  have hraw : b ≠ .send → cfg.qpType ≠ .rawPacket := by
    rintro hne hraw
    rw [hraw] at hb
    cases b <;> simp [QpType.builds, Builder.opcode] at hb hne
  have himm {y : Ex} (h : Stored cfg bbs x y ∧ Aimed cfg overhead y) (imm : UInt32) :
      Stored cfg bbs x (y.setImm imm) ∧ Aimed cfg overhead (y.setImm imm) :=
    ⟨h.1.trans (stored_setImm (h.1.ctrl.trans hp) hs.bbs_pos imm), h.2.congr⟩
  cases b with
  | send =>
    by_cases hr : cfg.qpType = .rawPacket
    · simp only [segments, if_pos hr]
      exact built_sendEth hp hs hr hle
    · simp only [Builder.opcode, headSz, if_neg hr] at hle
      simp only [segments, if_neg hr]
      exact built_data (sendWrSend_spec hp bbs hle) hr
  | sendImm imm => exact built_data (himm (sendWrSend_spec hp bbs hle) imm) (hraw (by simp))
  | sendInv rkey => exact built_data (himm (sendWrSend_spec hp bbs hle) rkey) (hraw (by simp))
  | rdmaWrite rkey addr | rdmaRead rkey addr =>
    exact built_data (sendWrRdma_spec hp hs hle rkey addr) (hraw (by simp))
  | rdmaWriteImm rkey addr imm =>
    exact built_data (himm (sendWrRdma_spec hp hs hle rkey addr) imm) (hraw (by simp))
  | atomicCmpSwp rkey addr compare swap =>
    exact built_data (sendWrAtomic_spec hp hs hle rkey addr compare swap true) (hraw (by simp))
  | atomicFetchAdd rkey addr add =>
    exact built_data (sendWrAtomic_spec hp hs hle rkey addr add 0 false) (hraw (by simp))
  | bindMw mwRkey rkey info =>
    simp only [Builder.opcode, headSz] at hle
    exact built_buildUmrWqe hp (by omega) mwRkey rkey info
  | localInv rkey =>
    simp only [Builder.opcode, headSz] at hle
    exact built_buildUmrWqe hp (by omega) rkey 0 .zero

end Ex

end

end Fusa.Driver.Sq

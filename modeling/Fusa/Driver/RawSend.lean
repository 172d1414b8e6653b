import Fusa.Driver.BatchIntact
import Fusa.Driver.RawPacket

/-! Every way to send a raw packet: what is sent is what the caller gave, but for a single buffer
that ends with the inline header. -/
namespace Fusa.Driver.Sq
open Bytes Transition List Option

/-- How often a setter sends its buffer: it drops the index that the copy of the header returns. -/
def Cfg.copies (cfg : Cfg) (length : ℕ) : ℕ :=
  if cfg.ethMinInlineSize = 18 ∧ length = 18 then 2 else 1

namespace Ex

section
variable {cfg : Cfg} {ram : Ram} {x x' : Ex} {p : SgCopyPtr} {b : DataBuf} {overhead bbs : ℕ}

theorem RawAim.header_single (ha : RawAim cfg x) (h : Ex.header cfg ram [b] x = .ok (x', p)) :
    cfg.copies b.length - p.index = 1 ∧
      Ex.header cfg ram (List.replicate (cfg.copies b.length) b) x = .ok (x', p) := by
  have heth := ha.eth
  rcases cfg.ethMinInlineSize_eq with h0 | h18
  · have hone : cfg.copies b.length = 1 := if_neg (by omega)
    rw [if_pos h0] at heth
    rw [hone, replicate_one]
    refine ⟨?_, h⟩
    rw [Ex.header, heth] at h
    obtain ⟨-, rfl⟩ := Prod.mk.inj (Except.ok.inj h)
    rfl
  · rw [if_neg (by omega)] at heth
    simp only [Ex.header, heth, h18] at h ⊢
    by_cases hb : 18 ≤ b.length
    · have htail : ∀ tail, copyEthInlineHeaders ram 18 (b :: tail) x.qp.mem (x.curCtrl + 16) =
          .ok (headerEnd 18 (x.curCtrl + 16)
            ⟨Bytes.put x.qp.mem (x.curCtrl + 16 + 14) (load ram b.addr 18), 0, 0, b.length, 18⟩) :=
        fun tail => if_pos hb
      rw [htail] at h
      by_cases he : b.length = 18
      · have htwo : cfg.copies b.length = 2 := if_pos ⟨h18, he⟩
        rw [htwo, replicate_succ, htail]
        refine ⟨?_, h⟩
        obtain ⟨-, rfl⟩ := Prod.mk.inj (Except.ok.inj h)
        simp [he]
      · have hone : cfg.copies b.length = 1 := if_neg (by omega)
        rw [hone, replicate_one, htail]
        refine ⟨?_, h⟩
        obtain ⟨-, rfl⟩ := Prod.mk.inj (Except.ok.inj h)
        simp [he]
    · -- the buffer is too short for the header
      have hleft : 18 - min b.length 18 ≠ 0 := by omega
      simp [copyEthInlineHeaders, if_neg hb, headerLoop, hleft] at h

variable {lkey length : UInt32} {addr : UInt64}

theorem setSgeEth_ok (herr : (setSgeEth cfg ram lkey addr length x).err = none) :
    ∃ m p, header cfg ram [⟨addr, length.toNat⟩] x = .ok (x.setMem m, p) ∧
      setSgeEth cfg ram lkey addr length x = commonWqeFinalize cfg (setSge lkey
        (addr + UInt64.ofNat p.offset) (length - UInt32.ofNat p.offset) (x.setMem m)) := by
  unfold setSgeEth at herr ⊢
  obtain ⟨m, e, hh⟩ | ⟨m, p, hh⟩ := header_cases cfg ram [⟨addr, length.toNat⟩] x <;>
    rw [hh] at herr ⊢
  · exact absurd herr fail_ne_none
  · exact ⟨m, p, rfl, rfl⟩

theorem setInlineDataEth_ok {length : ℕ}
    (herr : (setInlineDataEth cfg ram addr length x).err = none) :
    ∃ m p, header cfg ram [⟨addr, length⟩] x = .ok (x.setMem m, p) ∧
      length - p.offset ≤ cfg.maxInlineData ∧
      setInlineDataEth cfg ram addr length x = commonWqeFinalize cfg (setInlineData cfg ram
        (addr + UInt64.ofNat p.offset) (length - p.offset) (x.setMem m)) := by
  unfold setInlineDataEth at herr ⊢
  obtain ⟨m, e, hh⟩ | ⟨m, p, hh⟩ := header_cases cfg ram [⟨addr, length⟩] x <;> rw [hh] at herr ⊢
  · exact absurd herr fail_ne_none
  · exact ⟨m, p, rfl, length_le_of_setInlineData herr, rfl⟩

theorem setSge_eq_loop (hend : x.curData ≠ cfg.qend) (sg : Sge) (offset : ℕ) :
    setSge sg.lkey (sg.addr + UInt64.ofNat offset) (sg.length - UInt32.ofNat offset) x =
      { x.setMem (sgeEthLoop cfg [sg] offset x.qp.mem x.curData x.curSize).1 with
        curSize := (sgeEthLoop cfg [sg] offset x.qp.mem x.curData x.curSize).2 } := by
  have hw : cfg.wrapped x.curData = x.curData := if_neg hend
  simp only [setSge, sgeEthLoop, hw]
  split <;> rfl

theorem setInlineData_eq_loop (ram : Ram) (x : Ex) (b : DataBuf) {offset : ℕ}
    (hmax : b.length - offset ≤ cfg.maxInlineData) :
    ∃ m, bufLoop cfg ram [b] offset x.qp.mem (x.curData + 4) 0 = (m, some (b.length - offset)) ∧
      setInlineData cfg ram (b.addr + UInt64.ofNat offset) (b.length - offset) x =
        { x.setMem (if b.length - offset = 0 then m
            else Bytes.put m x.curData (be32 (inlineCount (b.length - offset)))) with
          inlWqe := true
          curSize := x.curSize +
            if b.length - offset = 0 then 0 else inlineUnits (b.length - offset) } := by
  refine ⟨putWrap x.qp.mem cfg.qend (x.curData + 4)
    (load ram (b.addr + UInt64.ofNat offset) (b.length - offset)), ?_, ?_⟩
  · rw [bufLoop, Nat.zero_add, if_neg (by omega)]
    rfl
  · rw [setInlineData, if_neg (by omega)]
    by_cases h0 : b.length - offset = 0
    · rw [if_pos h0, if_pos h0, if_pos h0, h0]
      have hnil : load ram (b.addr + UInt64.ofNat offset) 0 = [] := rfl
      rw [hnil, putWrap_nil]
      rfl
    · rw [if_neg h0, if_neg h0, if_neg h0]
      rfl

theorem setSgeEth_sent (ha : RawAim cfg x)
    (herr : (setSgeEth cfg ram lkey addr length x).err = none) :
    (setSgeEth cfg ram lkey addr length x).sent cfg ram false =
      cat ram (List.replicate (cfg.copies length.toNat) ⟨addr, length.toNat⟩) := by
  obtain ⟨m, p, hh, heq⟩ := setSgeEth_ok herr
  obtain ⟨hcount, hcopies⟩ := ha.header_single hh
  obtain ⟨q, hq⟩ := ha.slot
  have hslot := cfg.slot_le q
  obtain ⟨-, -, -, h48⟩ := cfg.rawHead_spec
  have hd := ha.data
  have hcurData : (x.setMem m).curData ≠ cfg.qend := by
    change x.curData ≠ cfg.qend
    omega
  have hmap : (List.replicate (cfg.copies length.toNat) (⟨addr, length, lkey⟩ : Sge)).map Sge.buf =
      List.replicate (cfg.copies length.toNat) ⟨addr, length.toNat⟩ := map_replicate
  have hdrop : (List.replicate (cfg.copies length.toNat) (⟨addr, length, lkey⟩ : Sge)).drop
      p.index = [⟨addr, length, lkey⟩] := by
    rw [drop_replicate, hcount, replicate_one]
  rw [heq, setSge_eq_loop hcurData ⟨addr, length, lkey⟩ p.offset, ← hmap]
  rw [← hmap] at hcopies
  refine sgeEthLoop_sent ha hcopies ?_ ?_
  · rw [hdrop, length_singleton]
    omega
  · rw [hdrop]
    rfl

theorem setInlineDataEth_sent (ha : RawAim cfg x) (hs : Sized cfg overhead bbs)
    (hle : cfg.rawHead ≤ overhead) {length : ℕ}
    (herr : (setInlineDataEth cfg ram addr length x).err = none) :
    (setInlineDataEth cfg ram addr length x).sent cfg ram true =
      cat ram (List.replicate (cfg.copies length) ⟨addr, length⟩) := by
  obtain ⟨m, p, hh, hmax, heq⟩ := setInlineDataEth_ok herr
  obtain ⟨hcount, hcopies⟩ := ha.header_single hh
  obtain ⟨m', hl, hset⟩ := setInlineData_eq_loop ram (x.setMem m) ⟨addr, length⟩ hmax
  have hdrop : (List.replicate (cfg.copies length) (⟨addr, length⟩ : DataBuf)).drop p.index =
      [⟨addr, length⟩] := by
    rw [drop_replicate, hcount, replicate_one]
  rw [heq, hset]
  refine bufLoop_sent ha hs hle hcopies ?_ rfl
  rwa [hdrop]

theorem curEth_build (hraw : cfg.qpType = .rawPacket) (h0 : cfg.ethMinInlineSize = 0)
    (wrId : UInt64) (flags : SendFlags) : (x.build cfg wrId flags .send).curEth = x.curEth := by
  have hinit : (commonWqeInit cfg wrId flags Builder.send.opcode x).curEth = x.curEth := by
    unfold commonWqeInit
    split <;> rfl
  simp only [build, segments, if_pos hraw]
  rw [← hinit]
  by_cases hok : flags.ipCsum ∧ ¬ cfg.csumRawOverEth
  · simp only [sendWrSendEth, if_pos hok, if_pos h0]
    rfl
  · rw [sendWrSendEth_ok hok]
    simp only [if_pos h0]

end

end Ex

namespace Batch
variable {cfg : Cfg} {ram : Ram} {s : Batch}

theorem curEth_of_reachable (hraw : cfg.qpType = .rawPacket) (h0 : cfg.ethMinInlineSize = 0)
    (h : (system cfg ram).Reachable s) : s.x.curEth = none := by
  refine h.invariant (P := fun s : Batch => s.x.curEth = none) (fun s (hs : Idle s) => hs.curEth)
    fun s a t hs hn => ?_
  cases a with
  | start | abort =>
    obtain ⟨-, ⟨⟩⟩ := ite_none_right_eq_some.mp hn
    exact hs
  | build wrId flags b =>
    simp only [system, next, hraw, QpType.builds] at hn
    split_ifs at hn with hb
    cases hn
    cases b with
    | send => exact (Ex.curEth_build hraw h0 wrId flags).trans hs
    | _ => simp [Builder.opcode] at hb
  | set st =>
    obtain ⟨-, ⟨⟩⟩ := ite_none_right_eq_some.mp hn
    simp only [Ex.set, if_pos hraw]
    exact (Ex.follows_setEth st).eth.trans hs
  | complete =>
    simp only [system, next] at hn
    split_ifs at hn <;>
    · cases hn
      simp only [Ex.complete]
      split <;> exact hs
  | poll n =>
    obtain ⟨w, -, hw⟩ := bind_eq_some_iff.mp hn
    cases hw
    exact hs

end Batch

def Setter.bufs : Setter → List DataBuf
  | .sge _ addr length => [⟨addr, length.toNat⟩]
  | .sgeList sgs => sgs.map Sge.buf
  | .inlineData addr length => [⟨addr, length⟩]
  | .inlineDataList bs => bs
  | _ => []

def Setter.isInline : Setter → Bool
  | .inlineData .. | .inlineDataList _ => true
  | _ => false

/-- One buffer that is as long as the inline header. -/
def Setter.Repeats (cfg : Cfg) : Setter → Prop
  | .sge _ _ length => cfg.ethMinInlineSize = 18 ∧ length = 18
  | .inlineData _ length => cfg.ethMinInlineSize = 18 ∧ length = 18
  | _ => False

/-- A raw packet: a turn of `_mlx5_post_send`, or a builder and its setter in a batch. -/
inductive RawSend
  | post (qp : Qp) (nreq : ℕ) (l : Locals) (w : SendWr)
  | wr (s : Batch) (wrId : UInt64) (flags : SendFlags) (st : Setter)

namespace RawSend

/-- The send is none of TSO, and what is asked of the queue pair is there. -/
def Proper (cfg : Cfg) (ram : Ram) : RawSend → Prop
  | post _ _ _ w => w.opcode ≠ .tso ∧ w.opcode.isAtomic = false
  | wr s _ _ st =>
    (Batch.system cfg ram).Reachable s ∧ s.before.isSome = true ∧ st.isAddr = false

/-- The WQE of a send that is accepted: the queue, its control segment and its units. -/
def wqe (cfg : Cfg) (ram : Ram) : RawSend → Option (Mem × ℕ × ℕ)
  | post qp nreq l w =>
    match postOne cfg ram qp nreq l w with
    | .ok (qp, l) => some (qp.mem, l.ctrl, l.size)
    | .error _ => none
  | wr s wrId flags st =>
    let x := (s.x.build cfg wrId flags .send).set cfg ram st
    if x.err = none then some (x.qp.mem, x.curCtrl, x.curSize) else none

def bufs : RawSend → List DataBuf
  | post _ _ _ w => w.sgList.map Sge.buf
  | wr _ _ _ st => st.bufs

def isInline : RawSend → Bool
  | post _ _ _ w => w.sendFlags.inline
  | wr _ _ _ st => st.isInline

def Repeats (cfg : Cfg) : RawSend → Prop
  | post .. => False
  | wr _ _ _ st => st.Repeats cfg

end RawSend

section
variable {cfg : Cfg} {ram : Ram} {attr : SqAttr} {x : Ex} {overhead bbs : ℕ}

theorem Created.rawHead_le (hc : Created cfg attr) (hraw : cfg.qpType = .rawPacket) :
    cfg.rawHead ≤ sqOverhead attr := by
  obtain ⟨-, -, -, h48⟩ := cfg.rawHead_spec
  have hops : 16 ≤ opsOverhead attr.ops := by
    simp only [opsOverhead]
    omega
  have ht : transportOverhead attr.qpType attr.underlay = 32 := by
    rw [hc.qpType, hraw]
    rfl
  unfold sqOverhead
  omega

theorem cat_copies_iff (b : DataBuf) : cat ram (List.replicate (cfg.copies b.length) b) =
    cat ram [b] ↔ ¬ (cfg.ethMinInlineSize = 18 ∧ b.length = 18) := by
  unfold Cfg.copies
  split
  · rename_i h
    refine iff_of_false (fun heq => ?_) (not_not_intro h)
    have hlen := congrArg List.length heq
    simp [h.2, replicate_succ] at hlen
  · rename_i h
    exact iff_of_true rfl h

theorem Setter.sent_iff {st : Setter} (hst : st.isAddr = false) (ha : x.RawAim cfg)
    (hs : Sized cfg overhead bbs) (hle : cfg.rawHead ≤ overhead)
    (herr : (x.setEth cfg ram st).err = none) :
    (x.setEth cfg ram st).sent cfg ram st.isInline = cat ram st.bufs ↔ ¬ st.Repeats cfg := by
  cases st with
  | sge lkey addr length =>
    have hsent := Ex.setSgeEth_sent ha herr
    have hiff : length = 18 ↔ length.toNat = 18 := by
      rw [← UInt32.toNat_inj]
      rfl
    simp only [Setter.Repeats, hiff]
    exact (Eq.congr_left hsent).trans (cat_copies_iff ⟨addr, length.toNat⟩)
  | sgeList sgs => exact iff_of_true (Ex.setSgeListEth_sent ha hs hle herr) not_false
  | inlineData addr length =>
    have hsent := Ex.setInlineDataEth_sent ha hs hle herr
    exact (Eq.congr_left hsent).trans (cat_copies_iff ⟨addr, length⟩)
  | inlineDataList bs => exact iff_of_true (Ex.setInlineDataListEth_sent ha hs hle herr) not_false
  | udAddr | xrcSrqn | dcAddr => cases hst

/-- A raw packet queue pair sends what the caller gave unless a setter repeats the header. -/
theorem sent_eq_bufs_iff (hc : Created cfg attr) (hraw : cfg.qpType = .rawPacket)
    (hgs : cfg.qpStateMaxGs ≤ cfg.maxGs) (a : RawSend) (ha : a.Proper cfg ram) (m : Mem)
    (ctrl size : ℕ) (hw : a.wqe cfg ram = some (m, ctrl, size)) :
    sent ram a.isInline (view m cfg.qend ctrl) size = cat ram a.bufs ↔ ¬ a.Repeats cfg := by
  obtain ⟨bbs, hs⟩ := hc.sized
  have hle := hc.rawHead_le hraw
  cases a with
  | post qp nreq l w =>
    simp only [RawSend.wqe] at hw
    cases hp : postOne cfg ram qp nreq l w with
    | error e =>
      rw [hp] at hw
      cases hw
    | ok r =>
      rw [hp] at hw
      cases hw
      exact iff_of_true (postOne_sent hraw hs hle hgs ha.1 ha.2 hp) not_false
  | wr s wrId flags st =>
    obtain ⟨hreach, -, hst⟩ := ha
    simp only [RawSend.wqe, Ex.set, if_pos hraw] at hw
    split_ifs at hw with herr
    cases hw
    have haim := Ex.build_rawAim hraw
      (fun h0 => Batch.curEth_of_reachable hraw h0 hreach) ((Ex.follows_setEth st).err herr)
    exact Setter.sent_iff hst haim hs hle herr

end

def fourPackets : Cfg :=
  { fourBlocks with qpType := .rawPacket, maxInlineData := 12, maxInlineData_lt := by decide }

def packetAttr : SqAttr :=
  { Batch.fourWrites with qpType := .rawPacket, ops := fun op => op = .send }

theorem created_fourPackets : Created fourPackets packetAttr := ⟨rfl, by decide +kernel⟩

def opened : Batch := { Batch.fresh with x := Batch.fresh.x.start, before := some (.empty 0) }

theorem reachable_opened (ram : Ram) : (Batch.system fourPackets ram).Reachable opened :=
  .exec (.start Batch.idle_fresh) [.start] rfl

theorem sent_sixtyBytes : ∃ m ctrl size,
    (RawSend.wr opened 0 {} (.sge 1 4096 60)).wqe fourPackets (fun a => a.toUInt8) =
      some (m, ctrl, size) ∧ sent (fun a => a.toUInt8) false (view m fourPackets.qend ctrl) size =
      cat (fun a => a.toUInt8) [⟨4096, 60⟩] := by
  have hacc : ((RawSend.wr opened 0 {} (.sge 1 4096 60)).wqe fourPackets
      (fun a => a.toUInt8)).isSome = true := by decide +kernel
  obtain ⟨⟨m, ctrl, size⟩, hw⟩ := isSome_iff_exists.mp hacc
  refine ⟨m, ctrl, size, hw, ?_⟩
  exact (sent_eq_bufs_iff created_fourPackets rfl (by decide) (.wr opened 0 {} (.sge 1 4096 60))
    ⟨reachable_opened _, rfl, rfl⟩ m ctrl size hw).mpr (by simp [RawSend.Repeats, Setter.Repeats])

/-- One SGE of eighteen bytes: all of it goes into the header, and all of it is the data. -/
theorem sent_twice_eighteen : Created fourPackets packetAttr ∧ ∃ m ctrl size,
    (Batch.system fourPackets fun a => a.toUInt8).Reachable opened ∧
    (RawSend.wr opened 0 {} (.sge 1 4096 18)).wqe fourPackets (fun a => a.toUInt8) =
      some (m, ctrl, size) ∧ sent (fun a => a.toUInt8) false (view m fourPackets.qend ctrl) size =
      cat (fun a => a.toUInt8) [⟨4096, 18⟩, ⟨4096, 18⟩] ∧
    sent (fun a => a.toUInt8) false (view m fourPackets.qend ctrl) size ≠
      cat (fun a => a.toUInt8) [⟨4096, 18⟩] := by
  have hacc : ((RawSend.wr opened 0 {} (.sge 1 4096 18)).wqe fourPackets
      (fun a => a.toUInt8)).map (fun r => sent (fun a => a.toUInt8) false
        (view r.1 fourPackets.qend r.2.1) r.2.2) =
      some (cat (fun a => a.toUInt8) [⟨4096, 18⟩, ⟨4096, 18⟩]) := by decide +kernel
  obtain ⟨⟨m, ctrl, size⟩, hw, hsent⟩ := map_eq_some_iff.mp hacc
  refine ⟨created_fourPackets, m, ctrl, size, reachable_opened _, hw, hsent, ?_⟩
  intro h
  exact absurd (hsent.symm.trans h) (by decide +kernel)

end Fusa.Driver.Sq

import Fusa.Driver.WrApi
import Mathlib.Data.Nat.Size

/-! `mlx5_calc_sq_size`, and where the data of a WQE lies along the ring. -/
namespace Fusa.Driver.Sq
open Bytes List Nat

/-- What the size of a send queue is computed from. `ops` are the operations of `send_ops_flags`. -/
structure SqAttr where
  qpType : QpType
  underlay : Bool
  ops : Opcode → Bool
  maxSendWr : ℕ
  maxSendSge : ℕ
  maxInlineData : ℕ
  maxTsoHeader : Option ℕ
  maxSqDescSz : ℕ
  maxSendWqebb : ℕ

variable (ops : Opcode → Bool)

def opsOverhead : ℕ :=
  let rdma := if ops .rdmaWrite ∨ ops .rdmaWriteWithImm ∨ ops .rdmaRead then 32 else 0
  let atomic := if ops .atomicCmpAndSwp ∨ ops .atomicFetchAndAdd then 48 else 0
  let mw := if ops .bindMw ∨ ops .localInv then 192 else 0
  max (max (max 16 rdma) atomic) mw

def transportOverhead (type : QpType) (underlay : Bool) : ℕ :=
  match type with
  | .driver | .ud => 48 + if underlay then 48 else 0
  | .xrcSend => 16
  | .rawPacket => 32
  | .rc | .uc => 0

def sqOverhead (attr : SqAttr) : ℕ :=
  opsOverhead attr.ops + transportOverhead attr.qpType attr.underlay

/-- `align(n, MLX5_SEND_WQE_BB)`. -/
def align64 (n : ℕ) : ℕ := (n + 63) / 64 * 64

def calcSendWqe (attr : SqAttr) : Option ℕ :=
  let overhead := sqOverhead attr
  let inlSize := if attr.maxInlineData = 0 then 0 else overhead + align16 (4 + attr.maxInlineData)
  let size := overhead + (attr.maxTsoHeader.map align16).getD 0
  if (attr.maxSqDescSz - size) / 16 < attr.maxSendSge then none
  else
    let totSize := max (size + attr.maxSendSge * 16) inlSize
    if attr.maxSqDescSz < totSize then none else some (align64 totSize)

def roundupPowOfTwo (n : ℕ) : ℕ := 2 ^ Nat.size (n - 1)

structure SqSize where
  maxInlineData : ℤ
  wqeCnt : ℕ
  maxGs : ℕ
  maxPost : ℕ
deriving DecidableEq, Repr

def calcSqSize (attr : SqAttr) : Option SqSize :=
  if attr.maxSendWr = 0 then none
  else
    match calcSendWqe attr with
    | none => none
    | some wqeSize =>
      if attr.maxSqDescSz < wqeSize then none
      else if 0x7fffffff / attr.maxSqDescSz < attr.maxSendWr then none
      else
        let wqSize := roundupPowOfTwo (attr.maxSendWr * wqeSize)
        if attr.maxSendWqebb < wqSize / 64 then none
        else
          some
            { maxInlineData := (wqeSize : ℤ) - sqOverhead attr - 4
              wqeCnt := wqSize / 64
              maxGs := attr.maxSendSge
              maxPost := wqSize / wqeSize }

/-- The send queue of `cfg` has the size that its attributes ask for. -/
structure Created (cfg : Cfg) (attr : SqAttr) : Prop where
  qpType : attr.qpType = cfg.qpType
  size : calcSqSize attr = some ⟨cfg.maxInlineData, cfg.wqeCnt, cfg.maxGs, cfg.maxPost.toNat⟩

/-- `bbs` blocks hold each requested operation with its data, for every WQE the ring admits. -/
structure Sized (cfg : Cfg) (overhead bbs : ℕ) : Prop where
  units : overhead % 16 = 0
  gs : overhead + 16 * cfg.maxGs ≤ 64 * bbs
  inl : overhead + 4 + cfg.maxInlineData ≤ 64 * bbs
  ring : bbs * cfg.maxPost.toNat ≤ cfg.wqeCnt
  le : bbs ≤ cfg.wqeCnt
  post : cfg.maxPost.toNat < 2 ^ 31

def headSz (cfg : Cfg) : Opcode → ℕ
  | .send => if cfg.qpType = .rawPacket then 16 + (16 + cfg.ethMinInlineSize) / 16 * 16
      else 16 + cfg.qpType.sendSegSz
  | .sendWithImm | .sendWithInv => 16 + cfg.qpType.sendSegSz
  | .rdmaWrite | .rdmaWriteWithImm | .rdmaRead => 32 + cfg.qpType.rdmaSegSz
  | .atomicCmpAndSwp | .atomicFetchAndAdd => 48 + cfg.qpType.rdmaSegSz
  | .bindMw | .localInv => 192
  | _ => 0

section
variable {cfg : Cfg} {attr : SqAttr}

theorem le_roundupPowOfTwo (n : ℕ) : n ≤ roundupPowOfTwo n := by
  have := lt_size_self (n - 1)
  unfold roundupPowOfTwo
  omega

theorem roundupPowOfTwo_le {n k : ℕ} (h : n ≤ 2 ^ k) : roundupPowOfTwo n ≤ 2 ^ k := by
  refine Nat.pow_le_pow_right (by omega) (Nat.size_le.mpr ?_)
  have := Nat.two_pow_pos k
  omega

theorem opsOverhead_units : opsOverhead ops % 16 = 0 := by
  unfold opsOverhead
  split_ifs <;> rfl

theorem le_opsOverhead : 16 ≤ opsOverhead ops := by
  simp only [opsOverhead]
  omega

theorem transportOverhead_units (type : QpType) (underlay : Bool) :
    transportOverhead type underlay % 16 = 0 := by
  cases type <;> cases underlay <;> rfl

theorem sqOverhead_units : sqOverhead attr % 16 = 0 := by
  have h₁ := opsOverhead_units attr.ops
  have h₂ := transportOverhead_units attr.qpType attr.underlay
  unfold sqOverhead
  omega

theorem calcSendWqe_some {n : ℕ} (h : calcSendWqe attr = some n) :
    n % 64 = 0 ∧ 0 < n ∧ sqOverhead attr + 16 * attr.maxSendSge ≤ n := by
  have hpos : 16 ≤ sqOverhead attr := (le_opsOverhead attr.ops).trans (le_add_right _ _)
  simp only [calcSendWqe] at h
  split_ifs at h <;>
  · cases h
    unfold align64
    omega

theorem headSz_le (hq : attr.qpType = cfg.qpType) {op : Opcode} (hops : attr.ops op = true)
    (hb : cfg.qpType.builds op = true) : headSz cfg op ≤ sqOverhead attr := by
  have heth : (16 + cfg.ethMinInlineSize) / 16 * 16 ≤ 32 := by
    rcases cfg.ethMinInlineSize_eq with h | h <;> omega
  have h16 := le_opsOverhead attr.ops
  unfold sqOverhead
  rw [hq]
  cases op <;> simp only [headSz]
  case send =>
    split_ifs with hraw
    · simp only [hraw, transportOverhead]
      omega
    · cases cfg.qpType <;> simp only [transportOverhead, QpType.sendSegSz] <;> omega
  all_goals
    cases hc : cfg.qpType <;> rw [hc] at hb <;>
      simp [QpType.builds, transportOverhead, QpType.sendSegSz, QpType.rdmaSegSz, opsOverhead,
        hops] at hb ⊢ <;> omega

theorem Created.sized (h : Created cfg attr) : ∃ bbs, Sized cfg (sqOverhead attr) bbs := by
  have hs := h.size
  by_cases hwr : attr.maxSendWr = 0
  · rw [calcSqSize, if_pos hwr] at hs
    cases hs
  rw [calcSqSize, if_neg hwr] at hs
  cases hwqe : calcSendWqe attr with
  | none =>
    rw [hwqe] at hs
    cases hs
  | some wqeSize =>
    obtain ⟨hmod, hpos, hfit⟩ := calcSendWqe_some hwqe
    simp only [hwqe] at hs
    split_ifs at hs with hdesc hmul
    simp only [Option.some.injEq, SqSize.mk.injEq] at hs
    obtain ⟨hinl, hcnt, hgs, hpost⟩ := hs
    have hle := le_roundupPowOfTwo (attr.maxSendWr * wqeSize)
    have hwqe_le : wqeSize ≤ attr.maxSendWr * wqeSize := Nat.le_mul_of_pos_left _ (by omega)
    have hdiv : cfg.maxPost.toNat * wqeSize ≤ roundupPowOfTwo (attr.maxSendWr * wqeSize) :=
      hpost ▸ div_mul_le_self _ _
    have hmax : attr.maxSendWr * wqeSize ≤ 2 ^ 31 := by
      have hle' : attr.maxSendWr ≤ 0x7fffffff / attr.maxSqDescSz := by omega
      have := (Nat.mul_le_mul hle' (by omega : wqeSize ≤ attr.maxSqDescSz)).trans
        (div_mul_le_self _ _)
      omega
    have hround := roundupPowOfTwo_le hmax
    obtain ⟨bbs, rfl⟩ : ∃ bbs, wqeSize = 64 * bbs := ⟨wqeSize / 64, by omega⟩
    generalize roundupPowOfTwo (attr.maxSendWr * (64 * bbs)) = wqSize at *
    have hring : cfg.maxPost.toNat * bbs * 64 ≤ wqSize := by
      rwa [mul_assoc, mul_comm bbs]
    refine ⟨bbs, sqOverhead_units, by omega, by omega, ?_, by omega, ?_⟩
    · rw [mul_comm]
      omega
    · have := Nat.le_mul_of_pos_right cfg.maxPost.toNat (by omega : 0 < bbs)
      omega

end

/-- The segment to come is `size` units behind the control segment, along the ring. -/
structure Aligned (cfg : Cfg) (b : Build) : Prop where
  ctrl : b.ctrl < cfg.qend
  le : b.seg ≤ cfg.qend
  units : b.seg % 16 = 0
  place : b.seg % cfg.qend = (b.ctrl + 16 * b.size) % cfg.qend

def SendWr.dataSeg (w : SendWr) (sg : Sge) (offset : ℕ) : List UInt8 :=
  if w.opcode.isAtomic then Sq.dataSeg 8 sg.lkey sg.addr
  else Sq.dataSeg (sg.length - UInt32.ofNat offset) sg.lkey (sg.addr + UInt64.ofNat offset)

def SendWr.dataBytes (w : SendWr) : List Sge → ℕ → List UInt8
  | [], _ => []
  | sg :: sgs, offset =>
    if sg.length = 0 then dataBytes w sgs offset else w.dataSeg sg offset ++ dataBytes w sgs 0

def liveSges (sgs : List Sge) : ℕ := sgs.countP fun sg => sg.length ≠ 0

section
variable {cfg : Cfg} {ram : Ram} {b b' : Build} {w : SendWr}

@[simp] theorem length_dataSegOf (sg : Sge) (offset : ℕ) : (w.dataSeg sg offset).length = 16 := by
  unfold SendWr.dataSeg
  split <;> rfl

theorem length_dataBytes (sgs : List Sge) (offset : ℕ) :
    (w.dataBytes sgs offset).length = 16 * liveSges sgs := by
  induction sgs generalizing offset with
  | nil => rfl
  | cons sg sgs ih =>
    unfold SendWr.dataBytes liveSges
    split
    · rename_i h
      rw [ih, countP_cons_of_neg (by simp [h]), liveSges]
    · rename_i h
      rw [length_append, ih, countP_cons_of_pos (by simp [h]), liveSges, length_dataSegOf]
      omega

theorem Cfg.qend_pos (cfg : Cfg) : 0 < cfg.qend := by
  have := cfg.wqeCnt_pos
  unfold Cfg.qend
  omega

theorem Cfg.qend_units (cfg : Cfg) : cfg.qend % 16 = 0 := by
  unfold Cfg.qend
  omega

theorem Cfg.slot_le (cfg : Cfg) (p : ℕ) : cfg.slot p + 64 ≤ cfg.qend := by
  have := mod_lt p cfg.wqeCnt_pos
  unfold Cfg.slot Cfg.qend
  omega

variable {wqe n : ℕ} {sgs : List Sge}

theorem Cfg.advance_le (cfg : Cfg) (hw : wqe ≤ cfg.qend) (hn : n ≤ cfg.qend) :
    cfg.advance wqe n ≤ cfg.qend := by
  unfold Cfg.advance
  split <;> omega

theorem Cfg.advance_mod (cfg : Cfg) (wqe n : ℕ) :
    cfg.advance wqe n % cfg.qend = (wqe + n) % cfg.qend := by
  unfold Cfg.advance
  split
  · exact (mod_eq_sub_mod (by omega)).symm
  · rfl

theorem Aligned.wrap (h : Aligned cfg b) :
    Aligned cfg (b.wrap cfg) ∧ (b.wrap cfg).seg + 16 ≤ cfg.qend := by
  have hp := cfg.qend_pos
  have hu := cfg.qend_units
  have hle := h.le
  have hs := h.units
  unfold Build.wrap
  by_cases he : b.seg = cfg.qend
  · simp only [he, if_true]
    refine ⟨⟨h.ctrl, zero_le _, rfl, ?_⟩, by omega⟩
    rw [← h.place, he]
    simp
  · simp only [if_neg he]
    exact ⟨h, by omega⟩

theorem Aligned.step (h : Aligned cfg b) (hctrl : b'.ctrl = b.ctrl) (hseg : b'.seg = b.seg + 16 * n)
    (hsize : b'.size = b.size + n) (hle : b'.seg ≤ cfg.qend) : Aligned cfg b' := by
  refine ⟨hctrl ▸ h.ctrl, hle, ?_, ?_⟩
  · have := h.units
    omega
  · rw [hseg, hctrl, hsize, add_mod, h.place, ← add_mod, mul_add, add_assoc]

theorem Aligned.view_put (h : Aligned cfg b) {xs : List UInt8}
    (hs : b.seg + xs.length ≤ cfg.qend) (ho : 16 * b.size + xs.length ≤ cfg.qend) :
    Agree cfg.qend (view (put b.mem b.seg xs) cfg.qend b.ctrl)
      (put (view b.mem cfg.qend b.ctrl) (16 * b.size) xs) :=
  Bytes.view_put h.ctrl ho hs h.place

structure Loaded (cfg : Cfg) (w : SendWr) (sgs : List Sge) (b b' : Build) : Prop where
  size : b'.size = b.size + liveSges sgs
  ctrl : b'.ctrl = b.ctrl
  view : Aligned cfg b → 16 * b'.size ≤ cfg.qend →
    Agree cfg.qend (view b'.mem cfg.qend b.ctrl)
      (put (view b.mem cfg.qend b.ctrl) (16 * b.size) (w.dataBytes sgs b.sg.offset))

theorem Loaded.cons {sg : Sge} {c : Build} (h : Loaded cfg w sgs c b') (hsg : sg.length ≠ 0)
    (hc : c.mem = put (b.wrap cfg).mem (b.wrap cfg).seg (w.dataSeg sg b.sg.offset))
    (hseg : c.seg = (b.wrap cfg).seg + 16) (hsize : c.size = b.size + 1) (hctrl : c.ctrl = b.ctrl)
    (hoff : c.sg.offset = 0) : Loaded cfg w (sg :: sgs) b b' := by
  have hlive : liveSges (sg :: sgs) = liveSges sgs + 1 := countP_cons_of_pos (by simp [hsg])
  refine ⟨by rw [h.size, hsize, hlive]; omega, h.ctrl.trans hctrl, fun ha hfit => ?_⟩
  obtain ⟨haw, hroom⟩ := ha.wrap
  have hac : Aligned cfg c := haw.step (n := 1) hctrl hseg hsize (by omega)
  have hv := h.view hac hfit
  have hfirst : Agree cfg.qend (Bytes.view c.mem cfg.qend b.ctrl)
      (put (Bytes.view b.mem cfg.qend b.ctrl) (16 * b.size) (w.dataSeg sg b.sg.offset)) := by
    rw [hc]
    refine haw.view_put (by simpa using hroom) ?_
    have hle := h.size
    simp only [Build.wrap, length_dataSegOf]
    omega
  rw [hctrl, hsize, hoff] at hv
  refine hv.trans ?_
  rw [SendWr.dataBytes, if_neg hsg, put_append, length_dataSegOf,
    show 16 * (b.size + 1) = 16 * b.size + 16 by omega]
  exact hfirst.put

theorem dataLoop_loaded (h : dataLoop cfg w sgs b = .ok b') : Loaded cfg w sgs b b' := by
  induction sgs generalizing b with
  | nil =>
    cases h
    exact ⟨rfl, rfl, fun _ _ => by rw [SendWr.dataBytes, put_nil]; exact fun _ _ => rfl⟩
  | cons sg sgs ih =>
    simp only [dataLoop] at h
    split_ifs at h with hz hat htso hmax
    · -- no segment for an empty SGE
      have hi := ih h
      refine ⟨?_, hi.ctrl, fun ha hfit => ?_⟩
      · rw [hi.size, liveSges, liveSges, countP_cons_of_neg (by simp [hz])]
        rfl
      · rw [SendWr.dataBytes, if_pos hz]
        exact hi.view ha.wrap.1 hfit
    all_goals
      refine (ih h).cons hz ?_ rfl rfl rfl rfl
      simp only [SendWr.dataSeg, hat]
      rfl

/-- The bytes that the loop of `set_data_inl_seg` copies. -/
def inlBytes (ram : Ram) : List Sge → ℕ → List UInt8
  | [], _ => []
  | sg :: sgs, offset =>
    load ram (sg.addr + UInt64.ofNat offset) (sg.length.toNat - offset) ++ inlBytes ram sgs 0

theorem inlLoop_ok {offset inl : ℕ} {m m' : Mem}
    (h : inlLoop cfg ram sgs offset m wqe inl = .ok (m', n)) :
    n = inl + (inlBytes ram sgs offset).length ∧ (inl ≤ cfg.maxInlineData → n ≤ cfg.maxInlineData) ∧
      ∀ base o, base < cfg.qend → o + (inlBytes ram sgs offset).length ≤ cfg.qend →
        wqe ≤ cfg.qend → wqe % cfg.qend = (base + o) % cfg.qend →
        Agree cfg.qend (view m' cfg.qend base)
          (put (view m cfg.qend base) o (inlBytes ram sgs offset)) := by
  induction sgs generalizing offset m wqe inl with
  | nil =>
    cases h
    refine ⟨rfl, id, fun base o _ _ _ _ => ?_⟩
    rw [inlBytes, put_nil]
    exact fun _ _ => rfl
  | cons sg sgs ih =>
    simp only [inlLoop] at h
    split_ifs at h with hneg hmax hend
    obtain ⟨hn, hle, hv⟩ := ih h
    refine ⟨?_, fun _ => hle (by omega), fun base o hb hx hw hp => ?_⟩
    · rw [hn, inlBytes, length_append, length_load]
      omega
    · rw [inlBytes, length_append, length_load] at hx
      rw [inlBytes, put_append, length_load]
      refine (hv base (o + (sg.length.toNat - offset)) hb (by omega)
        (cfg.advance_le hw (by omega)) ?_).trans ?_
      · rw [cfg.advance_mod, add_mod, hp, ← add_mod, add_assoc]
      · exact (view_putWrap hb (by rw [length_load]; omega) hw hp).put

end

end Fusa.Driver.Sq

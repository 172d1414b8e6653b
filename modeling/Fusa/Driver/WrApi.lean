import Fusa.Driver.PostChain

/-! The `ibv_wr` functions of a queue pair: builders and setters. -/
namespace Fusa.Driver.Sq
open Bytes

/-- The part of `mlx5_qp` that the calls share. -/
structure Ex where
  qp : Qp
  curPostRb : ℕ
  fmCacheRb : UInt8
  err : Option Errno
  nreq : ℕ
  inlWqe : Bool
  curCtrl : ℕ
  curData : ℕ
  curSize : ℕ
  curEth : Option ℕ
  curSettersCnt : ℕ

/-- The WR builders, with what `mlx5_send_wr_bind_mw` reads of the memory window. -/
inductive Builder
  | send
  | sendImm (immData : UInt32)
  | sendInv (invalidateRkey : UInt32)
  | rdmaWrite (rkey : UInt32) (remoteAddr : UInt64)
  | rdmaWriteImm (rkey : UInt32) (remoteAddr : UInt64) (immData : UInt32)
  | rdmaRead (rkey : UInt32) (remoteAddr : UInt64)
  | atomicCmpSwp (rkey : UInt32) (remoteAddr compare swap : UInt64)
  | atomicFetchAdd (rkey : UInt32) (remoteAddr add : UInt64)
  | bindMw (mwRkey rkey : UInt32) (info : BindInfo)
  | localInv (invalidateRkey : UInt32)

structure Ah where
  av : List UInt8
  length_av : av.length = 48

inductive Setter
  | sge (lkey : UInt32) (addr : UInt64) (length : UInt32)
  | sgeList (sgList : List Sge)
  | inlineData (addr : UInt64) (length : ℕ)
  | inlineDataList (bufList : List DataBuf)
  | udAddr (ah : Ah) (remoteQpn remoteQkey : UInt32)
  | xrcSrqn (remoteSrqn : UInt32)
  | dcAddr (ah : Ah) (remoteDctn : UInt32) (remoteDcKey : UInt64)

namespace Builder

def opcode : Builder → Opcode
  | send => .send
  | sendImm _ => .sendWithImm
  | sendInv _ => .sendWithInv
  | rdmaWrite .. => .rdmaWrite
  | rdmaWriteImm .. => .rdmaWriteWithImm
  | rdmaRead .. => .rdmaRead
  | atomicCmpSwp .. => .atomicCmpAndSwp
  | atomicFetchAdd .. => .atomicFetchAndAdd
  | bindMw .. => .bindMw
  | localInv _ => .localInv

def isUmr : Builder → Bool
  | bindMw .. | localInv _ => true
  | _ => false

end Builder

def Setter.isAddr : Setter → Bool
  | udAddr .. | xrcSrqn _ | dcAddr .. => true
  | _ => false

namespace QpType

/-- The tables that `fill_wr_builders_*` fill. -/
def builds : QpType → Opcode → Bool
  | .rc, op | .xrcSend, op | .driver, op => op ≠ .tso ∧ op ≠ .driver1 ∧ op ≠ .unsupported
  | .uc, op => op = .send ∨ op = .sendWithImm ∨ op = .sendWithInv ∨ op = .rdmaWrite ∨
      op = .rdmaWriteWithImm ∨ op = .bindMw ∨ op = .localInv
  | .ud, op => op = .send ∨ op = .sendWithImm
  | .rawPacket, op => op = .send

/-- `WQE_REQ_SETTERS_UD_XRC_DC` setters complete a WQE. -/
def twoSetters : QpType → Bool
  | .ud | .xrcSend | .driver => true
  | .rc | .uc | .rawPacket => false

def sets : QpType → Setter → Bool
  | .ud, .udAddr .. | .xrcSend, .xrcSrqn _ | .driver, .dcAddr .. => true
  | _, s => !s.isAddr

/-- `transport_seg_sz` of a send. -/
def sendSegSz : QpType → ℕ
  | .ud | .driver => 48
  | .xrcSend => 16
  | _ => 0

/-- `transport_seg_sz` of an RDMA operation or an atomic. -/
def rdmaSegSz : QpType → ℕ
  | .driver => 48
  | .xrcSend => 16
  | _ => 0

end QpType

/-- `mlx5_get_send_wqe(mqp, 0)` in place of the end of the queue. -/
def Cfg.wrapped (cfg : Cfg) (a : ℕ) : ℕ := if a = cfg.qend then 0 else a

namespace Ex

/-- `if (!mqp->err) mqp->err = e`. -/
def fail (x : Ex) (e : Errno) : Ex := { x with err := x.err.or (some e) }

def setMem (x : Ex) (m : Mem) : Ex := { x with qp := { x.qp with mem := m } }

def put (x : Ex) (a : ℕ) (bs : List UInt8) : Ex := x.setMem (Bytes.put x.qp.mem a bs)

def start (x : Ex) : Ex :=
  { x with
    curPostRb := x.qp.curPost
    fmCacheRb := x.qp.fmCache
    err := none
    nreq := 0
    inlWqe := false }

def rollBack (x : Ex) : Ex :=
  { x with qp := { x.qp with curPost := x.curPostRb, fmCache := x.fmCacheRb } }

def abort (x : Ex) : Ex := x.rollBack

section
variable (cfg : Cfg) (ram : Ram)

def complete (x : Ex) : Ex × Option Errno :=
  match x.err with
  | some e => (x.rollBack, some e)
  | none =>
    let l := { Locals.init 0 with inl := x.inlWqe, size := x.curSize, ctrl := x.curCtrl }
    ({ x with qp := postSendDb cfg x.qp x.nreq l }, none)

def wrData : Opcode → WrData
  | .bindMw => .bindMw
  | .localInv => .localInv
  | _ => .none

/-- The control segment of `_common_wqe_init`. -/
def initCtrl (flags : SendFlags) (op : Opcode) (qp : Qp) : Mem :=
  let ctrl := cfg.slot qp.curPost
  let m := Bytes.put qp.mem (ctrl + 8) (be32 0)
  let m := Bytes.put m (ctrl + 11) [flags.fmCeSe cfg.sqSignalBits qp.fmCache]
  Bytes.put m ctrl (be32 ((UInt32.ofNat (qp.curPost % 65536) <<< 8) ||| op.mlx5))

/-- `_common_wqe_init`. Without room it leaves `cur_ctrl` where it is. -/
def commonWqeInit (wrId : UInt64) (flags : SendFlags) (op : Opcode) (x : Ex) : Ex :=
  if wqOverflow cfg x.qp x.nreq then x.fail .enomem
  else
    let idx := x.qp.curPost % cfg.wqeCnt
    { x with
      qp := { x.qp with
        mem := initCtrl cfg flags op x.qp
        wrid := Function.update x.qp.wrid idx wrId
        wqeHead := Function.update x.qp.wqeHead idx (x.qp.head + UInt32.ofNat x.nreq)
        wrData := Function.update x.qp.wrData idx (wrData op)
        fmCache := 0 }
      curCtrl := cfg.slot x.qp.curPost }

def commonWqeFinalize (x : Ex) : Ex :=
  let m := Bytes.put x.qp.mem (x.curCtrl + 4)
    (be32 (UInt32.ofNat x.curSize ||| (cfg.qpNum <<< 8)))
  let m := if cfg.wqSig then Bytes.put m (x.curCtrl + 8) [wqSig m x.curCtrl x.curSize] else m
  { x with qp := { x.qp with mem := m, curPost := x.qp.curPost + (x.curSize + 3) / 4 } }

/-- The cursors behind a builder's segments: `size` units, the last of which end at `data`. -/
def aim (data size : ℕ) (x : Ex) : Ex :=
  { x with curData := data, curSize := size, nreq := x.nreq + 1 }

/-- `_mlx5_send_wr_send` behind the control segment. -/
def sendWrSend (x : Ex) : Ex :=
  let seg := cfg.qpType.sendSegSz
  { x.aim (cfg.wrapped (x.curCtrl + 16 + seg)) ((16 + seg) / 16) with curSettersCnt := 0 }

/-- `mlx5_send_wr_send_eth` behind the control segment. -/
def sendWrSendEth (flags : SendFlags) (x : Ex) : Ex :=
  let eseg := x.curCtrl + 16
  let x := x.put eseg (List.replicate 32 0)
  let x := { x with curEth := if cfg.ethMinInlineSize = 0 then x.curEth else some eseg }
  if flags.ipCsum ∧ ¬ cfg.csumRawOverEth then x.fail .einval
  else
    let x := if flags.ipCsum then x.put (eseg + 4) [0xc0] else x
    let esegSz := (16 + cfg.ethMinInlineSize) / 16 * 16
    x.aim (eseg + esegSz) ((16 + esegSz) / 16)

def setImm (imm : UInt32) (x : Ex) : Ex := x.put (x.curCtrl + 12) (be32 imm)

def raddrSeg (x : Ex) : ℕ := cfg.wrapped (x.curCtrl + 16 + cfg.qpType.rdmaSegSz)

/-- `_mlx5_send_wr_rdma` behind the control segment. -/
def sendWrRdma (rkey : UInt32) (remoteAddr : UInt64) (x : Ex) : Ex :=
  let seg := raddrSeg cfg x
  let x := x.setMem (setRaddrSeg x.qp.mem seg remoteAddr rkey)
  { x.aim (seg + 16) ((32 + cfg.qpType.rdmaSegSz) / 16) with curSettersCnt := 0 }

/-- `_mlx5_send_wr_atomic` behind the control segment. -/
def sendWrAtomic (rkey : UInt32) (remoteAddr compareAdd swap : UInt64) (cmpAndSwp : Bool)
    (x : Ex) : Ex :=
  let seg := raddrSeg cfg x
  let x := x.setMem (setRaddrSeg x.qp.mem seg remoteAddr rkey)
  let x := x.setMem (setAtomicSeg x.qp.mem (seg + 16) cmpAndSwp swap compareAdd)
  { x.aim (cfg.wrapped (seg + 32)) ((48 + cfg.qpType.rdmaSegSz) / 16) with curSettersCnt := 0 }

/-- The WQE of `_build_umr_wqe` in front of `set_bind_wr`. -/
def umrStart (x : Ex) : Build :=
  { Locals.init 0 with
    size := 1, ctrl := x.curCtrl, mem := x.qp.mem, seg := x.curCtrl + 16, wrData := .none }

/-- `_build_umr_wqe` behind the control segment. -/
def buildUmrWqe (origRkey newRkey : UInt32) (info : BindInfo) (x : Ex) : Ex :=
  let x := x.setImm origRkey
  match setBindWr cfg .type2 newRkey info (umrStart x) with
  | .error (e, b) => (x.setMem b.mem).fail e
  | .ok b =>
    let qp := { x.qp with mem := b.mem, fmCache := 0x20 }
    commonWqeFinalize cfg { x with qp, curSize := b.size, nreq := x.nreq + 1 }

def segments (flags : SendFlags) : Builder → Ex → Ex
  | .send, x => if cfg.qpType = .rawPacket then sendWrSendEth cfg flags x else sendWrSend cfg x
  | .sendImm imm, x => (sendWrSend cfg x).setImm imm
  | .sendInv rkey, x => (sendWrSend cfg x).setImm rkey
  | .rdmaWrite rkey addr, x => sendWrRdma cfg rkey addr x
  | .rdmaWriteImm rkey addr imm, x => (sendWrRdma cfg rkey addr x).setImm imm
  | .rdmaRead rkey addr, x => sendWrRdma cfg rkey addr x
  | .atomicCmpSwp rkey addr compare swap, x => sendWrAtomic cfg rkey addr compare swap true x
  | .atomicFetchAdd rkey addr add, x => sendWrAtomic cfg rkey addr add 0 false x
  | .bindMw mwRkey rkey info, x => buildUmrWqe cfg mwRkey rkey info x
  | .localInv rkey, x => buildUmrWqe cfg rkey 0 .zero x

def build (wrId : UInt64) (flags : SendFlags) (b : Builder) (x : Ex) : Ex :=
  segments cfg flags b (commonWqeInit cfg wrId flags b.opcode x)

def setSge (lkey : UInt32) (addr : UInt64) (length : UInt32) (x : Ex) : Ex :=
  if length = 0 then x
  else { x.put x.curData (dataSeg length lkey addr) with curSize := x.curSize + 1 }

/-- The loop of `_mlx5_send_wr_set_sge_list`: the queue and `cur_size`. -/
def sgeLoop : List Sge → Mem → ℕ → ℕ → Mem × ℕ
  | [], m, _, size => (m, size)
  | sg :: sgs, m, dseg, size =>
    let dseg := cfg.wrapped dseg
    if sg.length = 0 then sgeLoop sgs m dseg size
    else sgeLoop sgs (Bytes.put m dseg (dataSeg sg.length sg.lkey sg.addr)) (dseg + 16) (size + 1)

def setSgeList (sgs : List Sge) (x : Ex) : Ex :=
  if cfg.maxGs < sgs.length then x.fail .enomem
  else
    let r := sgeLoop cfg sgs x.qp.mem x.curData x.curSize
    { x.setMem r.1 with curSize := r.2 }

def inlineUnits (length : ℕ) : ℕ := (length + 4 + 15) / 16

def setInlineData (addr : UInt64) (length : ℕ) (x : Ex) : Ex :=
  if cfg.maxInlineData < length then x.fail .enomem
  else
    let x := { x with inlWqe := true }
    if length = 0 then x
    else
      let m := putWrap x.qp.mem cfg.qend (x.curData + 4) (load ram addr length)
      { x.setMem (Bytes.put m x.curData (be32 (inlineCount length))) with
        curSize := x.curSize + inlineUnits length }

/-- The loop over an inline list: the queue, and the length of the data unless too long. -/
def bufLoop : List DataBuf → ℕ → Mem → ℕ → ℕ → Mem × Option ℕ
  | [], _, m, _, inl => (m, some inl)
  | b :: bs, offset, m, wqe, inl =>
    let length := b.length - offset
    if cfg.maxInlineData < inl + length then (m, none)
    else
      bufLoop bs 0 (putWrap m cfg.qend wqe (load ram (b.addr + UInt64.ofNat offset) length))
        (cfg.advance wqe length) (inl + length)

/-- An inline list, gathered from the place `p` on. A list that is too long fails with `e`. -/
def gatherInline (e : Errno) (bs : List DataBuf) (p : SgCopyPtr) (x : Ex) : Ex × Bool :=
  match bufLoop cfg ram (bs.drop p.index) p.offset x.qp.mem (x.curData + 4) 0 with
  | (m, none) => ((x.setMem m).fail e, false)
  | (m, some inl) =>
    let x := { x with inlWqe := true }
    if inl = 0 then (x.setMem m, true)
    else
      ({ x.setMem (Bytes.put m x.curData (be32 (inlineCount inl))) with
        curSize := x.curSize + inlineUnits inl }, true)

def setInlineDataList (bs : List DataBuf) (x : Ex) : Ex :=
  (gatherInline cfg ram .enomem bs ⟨0, 0⟩ x).1

def setterEnd (x : Ex) : Ex :=
  if cfg.qpType.twoSetters then
    if x.curSettersCnt = 1 then commonWqeFinalize cfg x
    else { x with curSettersCnt := x.curSettersCnt + 1 }
  else commonWqeFinalize cfg x

/-- The inline header, where `cur_eth` asks for one. -/
def header (bs : List DataBuf) (x : Ex) : Except Ex (Ex × SgCopyPtr) :=
  match x.curEth with
  | none => .ok (x, ⟨0, 0⟩)
  | some eseg =>
    match copyEthInlineHeaders ram cfg.ethMinInlineSize bs x.qp.mem eseg with
    | .error (e, m) => .error ((x.setMem m).fail e)
    | .ok (m, p) => .ok (x.setMem m, p)

def setSgeEth (lkey : UInt32) (addr : UInt64) (length : UInt32) (x : Ex) : Ex :=
  match header cfg ram [⟨addr, length.toNat⟩] x with
  | .error x => x
  | .ok (x, p) =>
    commonWqeFinalize cfg
      (setSge lkey (addr + UInt64.ofNat p.offset) (length - UInt32.ofNat p.offset) x)

/-- The loop of `mlx5_send_wr_set_sge_list_eth`. -/
def sgeEthLoop : List Sge → ℕ → Mem → ℕ → ℕ → Mem × ℕ
  | [], _, m, _, size => (m, size)
  | sg :: sgs, offset, m, dseg, size =>
    let length := sg.length - UInt32.ofNat offset
    if length = 0 then sgeEthLoop sgs offset m dseg size
    else
      let dseg := cfg.wrapped dseg
      sgeEthLoop sgs 0
        (Bytes.put m dseg (dataSeg length sg.lkey (sg.addr + UInt64.ofNat offset))) (dseg + 16)
        (size + 1)

def setSgeListEth (sgs : List Sge) (x : Ex) : Ex :=
  if cfg.maxGs < sgs.length then x.fail .enomem
  else
    match header cfg ram (sgs.map Sge.buf) x with
    | .error x => x
    | .ok (x, p) =>
      let r := sgeEthLoop cfg (sgs.drop p.index) p.offset x.qp.mem x.curData x.curSize
      commonWqeFinalize cfg { x.setMem r.1 with curSize := r.2 }

def setInlineDataEth (addr : UInt64) (length : ℕ) (x : Ex) : Ex :=
  match header cfg ram [⟨addr, length⟩] x with
  | .error x => x
  | .ok (x, p) =>
    commonWqeFinalize cfg
      (setInlineData cfg ram (addr + UInt64.ofNat p.offset) (length - p.offset) x)

def setInlineDataListEth (bs : List DataBuf) (x : Ex) : Ex :=
  match header cfg ram bs x with
  | .error x => x
  | .ok (x, p) =>
    let r := gatherInline cfg ram .einval bs p x
    if r.2 then commonWqeFinalize cfg r.1 else r.1

def dcAv (ah : Ah) (remoteDctn : UInt32) (remoteDcKey : UInt64) : List UInt8 :=
  be64 remoteDcKey ++ List.zipWith (· ||| ·) ((ah.av.drop 8).take 4)
    (be32 (remoteDctn ||| 0x80000000)) ++ ah.av.drop 12

/-- What a setter stores on a queue pair that is not for raw packets. -/
def setCore : Setter → Ex → Ex
  | .sge lkey addr length, x => setSge lkey addr length x
  | .sgeList sgs, x => setSgeList cfg sgs x
  | .inlineData addr length, x => setInlineData cfg ram addr length x
  | .inlineDataList bs, x => setInlineDataList cfg ram bs x
  | .udAddr ah qpn qkey, x => x.setMem (setDatagramSeg x.qp.mem (x.curCtrl + 16) ⟨ah.av, qpn, qkey⟩)
  | .xrcSrqn srqn, x => x.setMem (setXrcSeg x.qp.mem (x.curCtrl + 16) srqn)
  | .dcAddr ah dctn key, x => x.put (x.curCtrl + 16) (dcAv ah dctn key)

def setEth : Setter → Ex → Ex
  | .sge lkey addr length, x => setSgeEth cfg ram lkey addr length x
  | .sgeList sgs, x => setSgeListEth cfg ram sgs x
  | .inlineData addr length, x => setInlineDataEth cfg ram addr length x
  | .inlineDataList bs, x => setInlineDataListEth cfg ram bs x
  | _, x => x

def set (s : Setter) (x : Ex) : Ex :=
  if cfg.qpType = .rawPacket then setEth cfg ram s x else setterEnd cfg (setCore cfg ram s x)

end

end Ex

end Fusa.Driver.Sq

import Fusa.Driver.Segments

/-! `_mlx5_post_send` down to the bytes of the send queue. -/
namespace Fusa.Driver.Sq
open Bytes

inductive QpType
  | rc
  | uc
  | ud
  | xrcSend
  | rawPacket
  | driver
deriving DecidableEq, Repr

/-- `ibv_wr_opcode`; `unsupported` stands for those past the end of `mlx5_ib_opcode`. -/
inductive Opcode
  | rdmaWrite
  | rdmaWriteWithImm
  | send
  | sendWithImm
  | rdmaRead
  | atomicCmpAndSwp
  | atomicFetchAndAdd
  | localInv
  | bindMw
  | sendWithInv
  | tso
  | driver1
  | unsupported
deriving DecidableEq, Repr

/-- `mlx5_ib_opcode`. -/
def Opcode.mlx5 : Opcode → UInt32
  | .send => 0x0a
  | .sendWithInv => 0x01
  | .sendWithImm => 0x0b
  | .rdmaWrite => 0x08
  | .rdmaWriteWithImm => 0x09
  | .rdmaRead => 0x10
  | .atomicCmpAndSwp => 0x11
  | .atomicFetchAndAdd => 0x12
  | .bindMw | .localInv | .driver1 => 0x25
  | .tso => 0x0e
  | .unsupported => 0

def Opcode.isAtomic : Opcode → Bool
  | .atomicCmpAndSwp | .atomicFetchAndAdd => true
  | _ => false

structure SendFlags where
  fence : Bool := false
  signaled : Bool := false
  solicited : Bool := false
  inline : Bool := false
  ipCsum : Bool := false
deriving DecidableEq, Repr

/-- `ibv_send_wr`; of the unions the member that opcode and queue pair select. -/
structure SendWr where
  wrId : UInt64 := 0
  sgList : List Sge := []
  opcode : Opcode
  sendFlags : SendFlags := {}
  immData : UInt32 := 0
  invalidateRkey : UInt32 := 0
  remoteAddr : UInt64 := 0
  rkey : UInt32 := 0
  compareAdd : UInt64 := 0
  swap : UInt64 := 0
  ud : UdAddr := ⟨[], 0, 0⟩
  remoteSrqn : UInt32 := 0
  mwType : MwType := .type1
  mwRkey : UInt32 := 0
  bindRkey : UInt32 := 0
  bindInfo : BindInfo := .zero
  tsoHdr : UInt64 := 0
  tsoHdrSz : ℕ := 0
  tsoMss : UInt16 := 0

/-- What is fixed for a queue pair, its device and register; `wqe_cnt` is a power of two. -/
structure Cfg where
  qpType : QpType
  qpNum : UInt32
  wqeCnt : ℕ
  wqeCnt_pos : 0 < wqeCnt
  maxPost : UInt32
  maxGs : ℕ
  qpStateMaxGs : ℕ
  maxInlineData : ℕ
  maxInlineData_lt : maxInlineData < 2 ^ 31
  sqSignalBits : UInt8
  atomicsEnabled : Bool
  underlay : Bool
  csumUnderlayUd : Bool
  csumRawOverEth : Bool
  wqSig : Bool
  maxTso : ℕ
  maxTsoHeader : ℕ
  ethMinInlineSize : ℕ
  ethMinInlineSize_eq : ethMinInlineSize = 0 ∨ ethMinInlineSize = 18
  shutUpBf : Bool
  preferBf : Bool
  uuarn : Bool
  bfBufSize : ℕ

def Cfg.qend (cfg : Cfg) : ℕ := 64 * cfg.wqeCnt

/-- `mlx5_get_send_wqe` at the slot of `cur_post`. -/
def Cfg.slot (cfg : Cfg) (curPost : ℕ) : ℕ := 64 * (curPost % cfg.wqeCnt)

/-- The place behind a copy of `n` bytes to `wqe`. -/
def Cfg.advance (cfg : Cfg) (wqe n : ℕ) : ℕ :=
  if cfg.qend < wqe + n then wqe + n - cfg.qend else wqe + n

inductive WrData
  | none
  | bindMw
  | localInv
deriving DecidableEq, Repr

/-- `reg` are the writes to the BlueFlame register so far, each with its offset. -/
structure Qp where
  mem : Mem
  wrid : ℕ → UInt64
  wqeHead : ℕ → UInt32
  wrData : ℕ → WrData
  head : UInt32
  tail : UInt32
  curPost : ℕ
  fmCache : UInt8
  db : ℕ
  bfOffset : ℕ
  reg : List (ℕ × List UInt8)

def Qp.empty (fmCache : UInt8) : Qp :=
  ⟨fun _ => 0, fun _ => 0, fun _ => 0, fun _ => .none, 0, 0, 0, fmCache, 0, 0, []⟩

/-- The variables of `_mlx5_post_send` that outlive one turn of its loop. -/
structure Locals where
  sg : SgCopyPtr
  nextFence : UInt8
  maxTso : ℕ
  inl : Bool
  size : ℕ
  ctrl : ℕ

structure Build extends Locals where
  mem : Mem
  seg : ℕ
  wrData : WrData

/-- An error leaves the variables and the queue as they are at that point. -/
abbrev Try := Except (Errno × Build) Build

namespace Build
variable (b : Build)

/-- `n` bytes of segments are complete. -/
def emit (m : Mem) (n : ℕ) : Build := { b with mem := m, seg := b.seg + n, size := b.size + n / 16 }

/-- The check for the end of the queue in front of a segment. -/
def wrap (cfg : Cfg) : Build := { b with seg := if b.seg = cfg.qend then 0 else b.seg }

def aim (sg : SgCopyPtr) : Build := { b with sg }

end Build

section
variable (cfg : Cfg) (ram : Ram)

def setBindWr (type : MwType) (rkey : UInt32) (info : BindInfo) (b : Build) : Try :=
  if 2 ^ 31 < info.length.toNat then .error (.eopnotsupp, b)
  else
    let b := (b.emit (setUmrControlSeg b.mem b.seg type info) 48).wrap cfg
    let b := b.emit (setUmrMkeySeg b.mem b.seg type rkey info cfg.qpNum) 64
    if info.length = 0 then .ok b
    else
      let b := b.wrap cfg
      .ok (b.emit (setUmrDataSeg b.mem b.seg info) 64)

/-- `IBV_WR_BIND_MW` and `IBV_WR_LOCAL_INV`. -/
def umrSegs (imm : UInt32) (type : MwType) (rkey : UInt32) (info : BindInfo) (wrData : WrData)
    (b : Build) : Try := do
  let b ← setBindWr cfg type rkey info
    { b with nextFence := 0x20, mem := put b.mem (b.ctrl + 12) (be32 imm) }
  return { b with wrData }

variable (qp : Qp) (w : SendWr) (nreq : ℕ) (b : Build)

def bindSegs : Try := umrSegs cfg w.mwRkey w.mwType w.bindRkey w.bindInfo .bindMw b

def localInvSegs : Try := umrSegs cfg w.invalidateRkey .type2 0 .zero .localInv b

def raddrSegs : Build := b.emit (setRaddrSeg b.mem b.seg w.remoteAddr w.rkey) 16

def rcSegs : Try :=
  match w.opcode with
  | .rdmaRead | .rdmaWrite | .rdmaWriteWithImm => .ok (raddrSegs w b)
  | .atomicCmpAndSwp | .atomicFetchAndAdd =>
    if cfg.atomicsEnabled then
      let b := raddrSegs w b
      .ok (b.emit (setAtomicSeg b.mem b.seg (w.opcode = .atomicCmpAndSwp) w.swap w.compareAdd) 16)
    else .error (.eopnotsupp, b)
  | .bindMw => bindSegs cfg w b
  | .localInv => localInvSegs cfg w b
  | _ => .ok b

def xrcSegs : Try :=
  if w.opcode = .bindMw ∨ w.opcode = .localInv then rcSegs cfg w b
  else rcSegs cfg w (b.emit (setXrcSeg b.mem b.seg w.remoteSrqn) 16)

def ucSegs : Try :=
  match w.opcode with
  | .rdmaWrite | .rdmaWriteWithImm => .ok (raddrSegs w b)
  | .bindMw => bindSegs cfg w b
  | .localInv => localInvSegs cfg w b
  | _ => .ok b

/-- The number of header bytes that `mlx5_post_send_underlay` copies. -/
def SendWr.ipoibHeader (w : SendWr) (length : UInt32) : ℕ :=
  if 18 ≤ length ∧ w.sendFlags.inline then 18 else 4

/-- Without SGEs the source reads past the end of `sg_list`; a zero entry stands there. -/
def SendWr.firstSge (w : SendWr) : Sge := w.sgList.headD ⟨0, 0, 0⟩

/-- `IBV_SEND_IP_CSUM` into the `cs_flags` of an Ethernet segment. -/
def SendWr.csum (w : SendWr) (m : Mem) (eseg : ℕ) : Mem :=
  if w.sendFlags.ipCsum then put m (eseg + 4) [0xc0] else m

def postSendUnderlay : Try :=
  if w.opcode = .sendWithImm then .error (.einval, b)
  else
    let eseg := b.seg + 16
    let b := { b with mem := put b.mem b.seg (List.replicate 28 0) }
    if w.sendFlags.ipCsum ∧ ¬ cfg.csumUnderlayUd then .error (.einval, b)
    else
      let b := { b with mem := w.csum b.mem eseg }
      let n := w.ipoibHeader w.firstSge.length
      if w.firstSge.length.toNat < n then .error (.einval, b)
      else
        let m := put b.mem (eseg + 14) (load ram w.firstSge.addr n)
        let b := b.emit (put m (eseg + 12) (be16 (UInt16.ofNat n))) 48
        .ok (b.aim (if w.firstSge.length.toNat = n then { b.sg with index := b.sg.index + 1 }
          else { b.sg with offset := n }))

def udSegs : Try :=
  let b := (b.emit (setDatagramSeg b.mem b.seg w.ud) 48).wrap cfg
  if cfg.underlay then postSendUnderlay cfg ram w b else .ok b

def align16 (n : ℕ) : ℕ := (n + 15) / 16 * 16

/-- `set_tso_eth_seg` and the two units behind it: the queue, the place of the data and the size.
A header that goes around the end of the queue leaves the data two units later than the size. -/
def tsoSeg (m : Mem) (seg size : ℕ) : Mem × ℕ × ℕ :=
  let hdr := load ram w.tsoHdr w.tsoHdrSz
  let copySz := min (cfg.qend - (seg + 14)) w.tsoHdrSz
  let m := put m (seg + 6) (be16 w.tsoMss)
  let m := put m (seg + 12) (be16 (UInt16.ofNat w.tsoHdrSz))
  let m := put m (seg + 14) (hdr.take copySz)
  if copySz < w.tsoHdrSz then
    let left := w.tsoHdrSz - copySz
    (put m 0 (hdr.drop copySz), align16 left + 32,
      size + (align16 (copySz - 2) / 16 - 1) + align16 left / 16 + 2)
  else (m, seg + (align16 (copySz - 2) - 16) + 32, size + (align16 (copySz - 2) / 16 - 1) + 2)

def setTsoEthSeg : Try :=
  if w.tsoHdrSz < 14 ∨ cfg.maxTsoHeader < w.tsoHdrSz then .error (.einval, b)
  else
    let r := tsoSeg cfg ram w b.mem b.seg b.size
    .ok { b with mem := r.1, seg := r.2.1, size := r.2.2 }

def ethSegs : Try :=
  match copyEthInlineHeaders ram cfg.ethMinInlineSize (w.sgList.map Sge.buf) b.mem b.seg with
  | .error (e, m) => .error (e, { b with mem := m })
  | .ok (m, sg) => .ok ((b.emit m ((16 + cfg.ethMinInlineSize) / 16 * 16)).aim sg)

def rawSegs : Try :=
  let b := { b with mem := put b.mem b.seg (List.replicate 32 0) }
  if w.sendFlags.ipCsum ∧ ¬ cfg.csumRawOverEth then .error (.einval, b)
  else
    let b := { b with mem := w.csum b.mem b.seg }
    if w.opcode = .tso then setTsoEthSeg cfg ram w { b with maxTso := cfg.maxTso }
    else ethSegs cfg ram w b

def headerSegs : Try :=
  match cfg.qpType with
  | .xrcSend => xrcSegs cfg w b
  | .rc => rcSegs cfg w b
  | .uc => ucSegs cfg w b
  | .ud => udSegs cfg ram w b
  | .rawPacket => rawSegs cfg ram w b
  | .driver => .ok b

/-- The loop of `set_data_inl_seg`: a negative length reaches `memcpy` as it is. -/
def inlLoop : List Sge → ℕ → Mem → ℕ → ℕ → Except (Errno × Mem) (Mem × ℕ)
  | [], _, m, _, inl => .ok (m, inl)
  | sg :: sgs, offset, m, wqe, inl =>
    if sg.length.toNat < offset then .error (.fault, m)
    else
      let len := sg.length.toNat - offset
      if cfg.maxInlineData < inl + len then .error (.enomem, m)
      else if cfg.qend < wqe then .error (.fault, m)
      else
        let data := load ram (sg.addr + UInt64.ofNat offset) len
        inlLoop sgs 0 (putWrap m cfg.qend wqe data)
          (cfg.advance wqe len) (inl + len)

/-- `MLX5_INLINE_SEG` with the length of the data. -/
def inlineCount (inl : ℕ) : UInt32 := UInt32.ofNat inl ||| 0x80000000

def setDataInlSeg : Try :=
  match inlLoop cfg ram (w.sgList.drop b.sg.index) b.sg.offset b.mem (b.seg + 4) 0 with
  | .error (e, m) => .error (e, { b with mem := m })
  | .ok (m, inl) =>
    if inl = 0 then .ok { b with mem := m, inl := true }
    else
      .ok { b with
        mem := put m b.seg (be32 (inlineCount inl))
        size := b.size + align16 (inl + 4) / 16
        inl := true }

def dataLoop (w : SendWr) : List Sge → Build → Try
  | [], b => .ok b
  | sg :: sgs, b =>
    let b := b.wrap cfg
    let tail := { b.sg with offset := 0 }
    if sg.length = 0 then dataLoop w sgs b
    else if w.opcode.isAtomic then
      dataLoop w sgs ((b.emit (setDataPtrSegAtomic b.mem b.seg sg) 16).aim tail)
    else if w.opcode = .tso then
      if b.maxTso < sg.length.toNat then .error (.einval, b)
      else
        let b := { b with maxTso := b.maxTso - sg.length.toNat }
        dataLoop w sgs ((b.emit (setDataPtrSeg b.mem b.seg sg b.sg.offset) 16).aim tail)
    else dataLoop w sgs ((b.emit (setDataPtrSeg b.mem b.seg sg b.sg.offset) 16).aim tail)

def dataSegs : Try :=
  if w.sendFlags.inline ∧ w.sgList ≠ [] then setDataInlSeg cfg ram w b
  else dataLoop cfg w (w.sgList.drop b.sg.index) b

def SendWr.ieth (w : SendWr) : UInt32 :=
  match w.opcode with
  | .sendWithImm | .rdmaWriteWithImm => w.immData
  | .sendWithInv => w.invalidateRkey
  | _ => 0

def SendFlags.fmCeSe (f : SendFlags) (signalBits nextFence : UInt8) : UInt8 :=
  signalBits ||| (if f.fence then 0x80 else nextFence) ||| (if f.signaled then 0x08 else 0) |||
    (if f.solicited then 0x02 else 0)

/-- The control segment, as far as it is known in front of the others. -/
def start (l : Locals) (w : SendWr) : Build :=
  let ctrl := cfg.slot qp.curPost
  let m := put qp.mem (ctrl + 8) (be32 0)
  let m := put m (ctrl + 12) (be32 w.ieth)
  { l with
    nextFence := 0
    size := 1
    ctrl
    mem := put m (ctrl + 11) [w.sendFlags.fmCeSe cfg.sqSignalBits l.nextFence]
    seg := ctrl + 16
    wrData := .none }

def wqOverflow : Bool := cfg.maxPost ≤ qp.head - qp.tail + UInt32.ofNat nreq

def check (w : SendWr) : Option Errno :=
  if w.opcode = .unsupported then some .einval
  else if wqOverflow cfg qp nreq then some .enomem
  else if cfg.qpStateMaxGs < w.sgList.length then some .enomem
  else none

def ctrlEnd (curPost : ℕ) (mlx5Opcode : UInt32) (b : Build) : Mem :=
  let m := put b.mem b.ctrl (be32 ((UInt32.ofNat (curPost % 65536) <<< 8) ||| mlx5Opcode))
  let m := put m (b.ctrl + 4) (be32 (UInt32.ofNat b.size ||| (cfg.qpNum <<< 8)))
  if cfg.wqSig then put m (b.ctrl + 8) [wqSig m b.ctrl b.size] else m

/-- The queue pair with a WQE's bytes and `wr_data`, which are stored also when it fails. -/
def store : Qp :=
  { qp with mem := b.mem, wrData := Function.update qp.wrData (qp.curPost % cfg.wqeCnt) b.wrData }

def finish (w : SendWr) (b : Build) : Qp :=
  let idx := qp.curPost % cfg.wqeCnt
  { store cfg qp { b with mem := ctrlEnd cfg qp.curPost w.opcode.mlx5 b } with
    wrid := Function.update qp.wrid idx w.wrId
    wqeHead := Function.update qp.wqeHead idx (qp.head + UInt32.ofNat nreq)
    curPost := qp.curPost + (b.size * 16 + 63) / 64 }

def build (l : Locals) (w : SendWr) : Try := do
  let b ← headerSegs cfg ram w (start cfg qp l w)
  dataSegs cfg ram w b

def postOne (l : Locals) (w : SendWr) :
    Except (Errno × Qp × Locals) (Qp × Locals) :=
  match check cfg qp nreq w with
  | some e => .error (e, qp, l)
  | none =>
    match build cfg ram qp l w with
    | .error (e, b) => .error (e, store cfg qp b, b.toLocals)
    | .ok b => .ok (finish cfg qp nreq w b, b.toLocals)

/-- The queue pair, the number of WQEs built, the variables and the error behind the loop. -/
structure Walk where
  qp : Qp
  nreq : ℕ
  locals : Locals
  err : Option Errno

def postLoop (qp : Qp) (nreq : ℕ) (l : Locals) : List SendWr → Walk
  | [] => ⟨qp, nreq, l, none⟩
  | w :: chain =>
    match postOne cfg ram qp nreq l w with
    | .error (e, qp, l) => ⟨qp, nreq, l, some e⟩
    | .ok (qp, l) => postLoop qp (nreq + 1) l chain

def bfCopy (m : Mem) (qend : ℕ) : ℕ → ℕ → List UInt8
  | 0, _ => []
  | n + 1, src => slice m src 64 ++ bfCopy m qend n (if src + 64 = qend then 0 else src + 64)

/-- What `post_send_db` writes to the register. -/
def doorbell (m : Mem) (nreq : ℕ) (l : Locals) : List UInt8 :=
  if ¬ cfg.shutUpBf ∧ nreq = 1 ∧ cfg.uuarn ∧ (l.inl ∨ cfg.preferBf) ∧ 1 < l.size ∧
      l.size ≤ cfg.bfBufSize / 16 then
    bfCopy m cfg.qend ((l.size * 16 + 63) / 64) l.ctrl
  else slice m l.ctrl 8

def postSendDb (l : Locals) : Qp :=
  if nreq = 0 then qp
  else
    { qp with
      head := qp.head + UInt32.ofNat nreq
      db := qp.curPost % 65536
      reg := qp.reg ++ [(qp.bfOffset, doorbell cfg qp.mem nreq l)]
      bfOffset := qp.bfOffset ^^^ cfg.bfBufSize }

def Locals.init (fmCache : UInt8) : Locals := ⟨⟨0, 0⟩, fmCache, 0, false, 0, 0⟩

/-- The way out of `_mlx5_post_send`. -/
def Walk.out (r : Walk) : Qp :=
  postSendDb cfg { r.qp with fmCache := r.locals.nextFence } r.nreq r.locals

def walk (chain : List SendWr) : Walk := postLoop cfg ram qp 0 (.init qp.fmCache) chain

/-- `_mlx5_post_send`: the queue pair it leaves, and an error with the position of `bad_wr`. -/
def postSend (chain : List SendWr) : Qp × Option (Errno × ℕ) :=
  let r := walk cfg ram qp chain
  (r.out cfg, r.err.map (·, r.nreq))

end

end Fusa.Driver.Sq

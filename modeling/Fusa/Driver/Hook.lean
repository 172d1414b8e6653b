import Fusa.Common
import Fusa.Lib.Modular

/-! `mlx5_post_send`: the rewriting of a request, and the hook on a chain of them. -/
namespace Fusa
open List Function

namespace RpcMeta

def rpcChunk (rmeta : RpcMeta) : ℕ := rmeta.length / (rmeta.machineNum * maxRecorderNum)

def maxRpcNum (rmeta : RpcMeta) : ℕ := rmeta.rpcChunk / rpcOpSize

/-- Address to which the request with ring offset `off` of a QP is written. -/
def remoteAddr (rmeta : RpcMeta) (machineId idx off : ℕ) : ℕ :=
  rmeta.rpcAddr + rmeta.rpcChunk * (machineId * maxRecorderNum + idx) + rpcOpSize * off

end RpcMeta

namespace LocalRpcMeta

variable (lmeta : LocalRpcMeta)

def bufChunk : ℕ := lmeta.rBufLength / maxRecorderNum

def maxRpcNum : ℕ := lmeta.bufChunk / rpcOpSize

/-- The send buffers come first, the receive buffers follow. -/
def recvBuf (idx off : ℕ) : ℕ :=
  lmeta.rpcAddr + lmeta.sBufLength + lmeta.bufChunk * idx + rpcOpSize * off

theorem recvBuf_inj {idx idx' off off' : ℕ}
    (ho : off < lmeta.maxRpcNum) (ho' : off' < lmeta.maxRpcNum)
    (h : lmeta.recvBuf idx off = lmeta.recvBuf idx' off') : idx = idx' ∧ off = off' := by
  have he : lmeta.bufChunk * idx + rpcOpSize * off = lmeta.bufChunk * idx' + rpcOpSize * off' := by
    unfold recvBuf at h
    omega
  obtain ⟨hi, hr⟩ :=
    Blocks.mul_add_inj (Blocks.mul_lt_of_lt_div ho) (Blocks.mul_lt_of_lt_div ho') he
  exact ⟨hi, Nat.eq_of_mul_eq_mul_left (by decide) hr⟩

end LocalRpcMeta

namespace Driver

inductive AtomicOpcode
  | cmpAndSwp
  | fetchAndAdd
deriving DecidableEq, Repr

def AtomicOpcode.code : AtomicOpcode → ℕ
  | .cmpAndSwp => casOpCode
  | .fetchAndAdd => faaOpCode

/-- An atomic work request: the fields that the RPC path copies into the request slot. -/
structure AtomicWr where
  opcode : AtomicOpcode
  remoteAddr : ℕ
  compareAdd : UInt64
  swap : UInt64
deriving DecidableEq, Repr

/-- The RNIC's own atomic: the memory it leaves and the value it returns. -/
def AtomicWr.perform (wr : AtomicWr) (mem : ℕ → UInt64) : (ℕ → UInt64) × UInt64 :=
  match wr.opcode with
  | .cmpAndSwp =>
    (if mem wr.remoteAddr = wr.compareAdd then Function.update mem wr.remoteAddr wr.swap else mem,
      mem wr.remoteAddr)
  | .fetchAndAdd =>
    (Function.update mem wr.remoteAddr (mem wr.remoteAddr + wr.compareAdd), mem wr.remoteAddr)

/-- The request slot written for an atomic; of the send buffer before only `comp` survives. -/
def encode (sendBuf : RpcOp) (machineId qpn respAddr : ℕ) (wr : AtomicWr) : RpcOp :=
  { sendBuf with
    opcode := wr.opcode.code
    cmp := wr.compareAdd
    swap := wr.swap
    qpn := qpn + machineId * qpOff
    remoteAddr := wr.remoteAddr
    respAddr := respAddr
    crc := crcCheckMagic }

end Driver

def LocalRpcMeta.sendBuf (lmeta : LocalRpcMeta) (idx off : ℕ) : ℕ :=
  lmeta.rpcAddr + lmeta.bufChunk * idx + rpcOpSize * off

namespace Driver

structure Sge where
  addr : ℕ
  length : ℕ
  lkey : ℕ
deriving DecidableEq, Repr

/-- The opcodes but the two atomics; `unsupported` stands for those past `mlx5_ib_opcode`. -/
inductive PlainOpcode
  | send
  | sendWithInv
  | sendWithImm
  | rdmaWrite
  | rdmaWriteWithImm
  | rdmaRead
  | bindMw
  | localInv
  | tso
  | unsupported
deriving DecidableEq, Repr

/-- An opcode with the member of the union `wr` that it selects. -/
inductive WrOp
  | atomic (wr : AtomicWr) (rkey : ℕ)
  | plain (opcode : PlainOpcode) (remoteAddr rkey : ℕ)
deriving DecidableEq, Repr

structure SendFlags where
  fence : Bool
  signaled : Bool
  solicited : Bool
  inline : Bool
deriving DecidableEq, Repr

def SendFlags.zero : SendFlags := ⟨false, false, false, false⟩

/-- `ibv_send_wr`. A chain linked through `next` is a list. -/
structure SendWr where
  wrId : ℕ
  sgList : List Sge
  op : WrOp
  sendFlags : SendFlags
deriving DecidableEq, Repr

structure RecvWr where
  wrId : ℕ
  sge : Sge
deriving DecidableEq, Repr

/-- What is fixed for a queue pair: two descriptors with keys, its recorder and its number. -/
structure Endpoint where
  rmeta : RpcMeta
  lmeta : LocalRpcMeta
  rkey : ℕ
  lkey : ℕ
  idx : ℕ
  qpn : ℕ

/-- The part of `sh_local_region` of a queue pair, its send buffers and posted receives. -/
structure Region where
  running : UInt64
  epoch : UInt64
  counters : ℕ → UInt64
  cCounters : ℕ → UInt64
  remoteOff : ℕ
  localOff : ℕ
  sendBufs : ℕ → RpcOp
  recvs : List RecvWr

def Region.zero : Region := ⟨0, 0, fun _ => 0, fun _ => 0, 0, 0, fun _ => .zero, []⟩

variable (ep : Endpoint) (credit : ℕ → UInt16) (r : Region)

/-- The RPC path in `HERD_RPC` mode: the region left, and the work request rewritten. -/
def offload (w : SendWr) (a : AtomicWr) : Region × SendWr :=
  let c := counterIdx a.remoteAddr
  let recvBuf := ep.lmeta.recvBuf ep.idx r.localOff
  let sendBuf := ep.lmeta.sendBuf ep.idx r.localOff
  ({ r with
      running := if r.running = 1 then 0 else r.running
      cCounters := update r.cCounters c (r.cCounters c + 1)
      remoteOff := (r.remoteOff + 1) % ep.rmeta.maxRpcNum
      localOff := (r.localOff + 1) % ep.lmeta.maxRpcNum
      sendBufs := update r.sendBufs sendBuf
        (encode (r.sendBufs sendBuf) ep.lmeta.machineId ep.qpn recvBuf a)
      recvs := r.recvs ++ (w.sgList.head?.map (⟨w.wrId, ·⟩)).toList },
    { w with
      sgList := w.sgList.set 0 ⟨sendBuf, rpcOpSize, ep.lkey⟩
      op := .plain .rdmaWrite (ep.rmeta.remoteAddr ep.lmeta.machineId ep.idx r.remoteOff) ep.rkey
      sendFlags := .zero })

def hookHead (w : SendWr) : Region × SendWr :=
  match w.op with
  | .plain _ _ _ => (r, w)
  | .atomic a _ =>
    let r := { r with running := if r.running = 0 then 1 else r.running, epoch := r.epoch + 1 }
    let c := counterIdx a.remoteAddr
    if credit c = 0 then
      ({ r with counters := update r.counters c (r.counters c + 1) }, w)
    else offload ep r w a

/-- The region that `mlx5_post_send` leaves and the chain handed on; only its first is looked at. -/
def hook : List SendWr → Region × List SendWr
  | [] => (r, [])
  | w :: next => ((hookHead ep credit r w).1, (hookHead ep credit r w).2 :: next)

/-- `w'` writes the operation `a` of `w` into a slot of the queue pair's request ring. -/
def IsRpcWrite (a : AtomicWr) (w w' : SendWr) : Prop :=
  ∃ remoteOff localOff old,
    w'.op = .plain .rdmaWrite (ep.rmeta.remoteAddr ep.lmeta.machineId ep.idx remoteOff) ep.rkey ∧
    w'.sgList = w.sgList.set 0 ⟨ep.lmeta.sendBuf ep.idx localOff, rpcOpSize, ep.lkey⟩ ∧
    r.sendBufs (ep.lmeta.sendBuf ep.idx localOff) =
      encode old ep.lmeta.machineId ep.qpn (ep.lmeta.recvBuf ep.idx localOff) a

/-- `w` is handed over as `w'`, as the credit of its own slot demands. -/
def RoutedWr (w w' : SendWr) : Prop :=
  match w.op with
  | .plain _ _ _ => w' = w
  | .atomic a _ => if credit (counterIdx a.remoteAddr) = 0 then w' = w else IsRpcWrite ep r a w w'

/-- An atomic on slot `c` that the CPU is to perform. -/
def SendWr.isCpuAtomic (w : SendWr) (c : ℕ) : Bool :=
  match w.op with
  | .plain _ _ _ => false
  | .atomic a _ => counterIdx a.remoteAddr = c ∧ credit c ≠ 0

/-- Every work request of the chain is routed by its own credit and counted once. -/
structure Routed (r : Region) (chain : List SendWr) : Prop where
  requests : List.Forall₂ (RoutedWr ep credit (hook ep credit r chain).1) chain
    (hook ep credit r chain).2
  counted : ∀ c, (hook ep credit r chain).1.cCounters c =
    r.cCounters c + UInt64.ofNat (chain.countP (·.isCpuAtomic credit c))

/-- The atomics behind the first work request are all left to the RNIC. -/
def RnicBehindHead (chain : List SendWr) : Prop :=
  ∀ w ∈ chain.tail, ∀ a rkey, w.op = .atomic a rkey → credit (counterIdx a.remoteAddr) = 0

section
variable {credit} {r r' : Region} {w : SendWr} {next : List SendWr}

theorem routedWr_self_iff : RoutedWr ep credit r w w ↔
    ∀ a rkey, w.op = .atomic a rkey → credit (counterIdx a.remoteAddr) = 0 := by
  unfold RoutedWr
  split
  · rename_i ho
    simp [ho]
  · rename_i a _ ho
    by_cases h : credit (counterIdx a.remoteAddr) = 0
    · simp [ho, h]
    · simp [ho, h, IsRpcWrite]

theorem forall₂_routedWr_iff : List.Forall₂ (RoutedWr ep credit r) next next ↔
    ∀ w ∈ next, ∀ a rkey, w.op = .atomic a rkey → credit (counterIdx a.remoteAddr) = 0 := by
  rw [forall₂_same]
  exact forall₂_congr fun w _ => routedWr_self_iff ep

theorem routedWr_hookHead :
    RoutedWr ep credit (hookHead ep credit r w).1 w (hookHead ep credit r w).2 := by
  cases ho : w.op with
  | plain => simp [RoutedWr, hookHead, ho]
  | atomic a rkey =>
    by_cases h : credit (counterIdx a.remoteAddr) = 0
    · simp [RoutedWr, hookHead, ho, h]
    · simp only [RoutedWr, hookHead, ho, h, if_false]
      exact ⟨_, _, _, rfl, rfl, update_self ..⟩

theorem hookHead_cCounters (c : ℕ) : (hookHead ep credit r w).1.cCounters c =
    r.cCounters c + if w.isCpuAtomic credit c then 1 else 0 := by
  cases ho : w.op with
  | plain => simp [hookHead, SendWr.isCpuAtomic, ho]
  | atomic a rkey =>
    by_cases hc : c = counterIdx a.remoteAddr
    · by_cases h : credit (counterIdx a.remoteAddr) = 0
      · simp [hookHead, SendWr.isCpuAtomic, ho, h, hc]
      · simp [hookHead, SendWr.isCpuAtomic, ho, h, hc, offload]
    · by_cases h : credit (counterIdx a.remoteAddr) = 0
      · simp [hookHead, SendWr.isCpuAtomic, ho, h, Ne.symm hc]
      · simp [hookHead, SendWr.isCpuAtomic, ho, h, hc, Ne.symm hc, offload]

theorem countP_isCpuAtomic_eq_zero (h : ∀ w ∈ next, ∀ a rkey, w.op = .atomic a rkey →
    credit (counterIdx a.remoteAddr) = 0) (c : ℕ) : next.countP (·.isCpuAtomic credit c) = 0 := by
  rw [countP_eq_zero]
  intro w hw
  unfold SendWr.isCpuAtomic
  split
  · simp
  · rename_i a rkey ho
    have hz := h w hw a rkey ho
    simp only [decide_eq_true_eq, not_and, not_not]
    rintro rfl
    exact hz

end

/-- Routed credit by credit exactly when the credits of atomics behind the first are zero. -/
theorem routed_iff (chain : List SendWr) :
    Routed ep credit r chain ↔ RnicBehindHead credit chain := by
  cases chain with
  | nil =>
    refine ⟨fun _ w hw => by simp at hw, fun _ => ⟨.nil, fun c => ?_⟩⟩
    simp [hook]
  | cons w next =>
    unfold RnicBehindHead
    rw [tail_cons, ← forall₂_routedWr_iff ep (r := (hookHead ep credit r w).1)]
    constructor
    · intro h
      exact (forall₂_cons.mp h.requests).2
    · intro h
      refine ⟨.cons (routedWr_hookHead ep) h, fun c => ?_⟩
      have hrest := countP_isCpuAtomic_eq_zero ((forall₂_routedWr_iff ep).mp h) c
      simp only [hook]
      rw [hookHead_cCounters, countP_cons, hrest]
      split <;> rfl

def readThenCas : List SendWr :=
  [⟨0, [⟨4096, 8, 1⟩], .plain .rdmaRead 64 1, .zero⟩,
    ⟨1, [⟨4104, 8, 1⟩], .atomic ⟨.cmpAndSwp, 128, 0, 7⟩ 1, .zero⟩]

def firstQp : Endpoint := ⟨⟨1, 4096, 65536⟩, ⟨0, 8192, 65536, 65536⟩, 1, 1, 7, 71⟩

/-- With every credit at one, the CAS behind the read still goes to the RNIC. -/
theorem not_routed_readThenCas : ¬ Routed firstQp (fun _ => 1) .zero readThenCas := by
  intro h
  obtain ⟨-, htail⟩ := forall₂_cons.mp h.requests
  obtain ⟨hcas, -⟩ := forall₂_cons.mp htail
  have hzero := (routedWr_self_iff firstQp).mp hcas ⟨.cmpAndSwp, 128, 0, 7⟩ 1 rfl
  exact absurd hzero (by decide)

end Driver
end Fusa

import Mathlib.Data.UInt
import Mathlib.Tactic

/-! Constants and records shared by the driver, the agents and the application server. -/
namespace Fusa

def maxCounterNum : ℕ := 512

def slotGranularity : ℕ := 16

def maxRecorderNum : ℕ := 32

def casOpCode : ℕ := 1

def faaOpCode : ℕ := 977

def crcCheckMagic : ℕ := 888

def qpOff : ℕ := 100000

def rpcOpSize : ℕ := 64

/-- Index of the counter, and of the credit, that covers an address. -/
def counterIdx (remoteAddr : ℕ) : ℕ := remoteAddr % (maxCounterNum * slotGranularity * 8) / 8

/-- A request or response slot; addresses, QP numbers and tags are naturals. -/
structure RpcOp where
  remoteAddr : ℕ
  swap : UInt64
  cmp : UInt64
  respAddr : ℕ
  qpn : ℕ
  opcode : ℕ
  comp : UInt64
  crc : ℕ
deriving DecidableEq, Repr

def RpcOp.zero : RpcOp := ⟨0, 0, 0, 0, 0, 0, 0, 0⟩

/-- `rmeta_`, where the server's request ring lies. -/
structure RpcMeta where
  machineNum : ℕ
  rpcAddr : ℕ
  length : ℕ

/-- `lmeta_`, where this machine's send and receive buffers lie. -/
structure LocalRpcMeta where
  machineId : ℕ
  rpcAddr : ℕ
  sBufLength : ℕ
  rBufLength : ℕ

/-- The part of `server_layout` that the application server consults. -/
structure StrategyView where
  credit : ℕ → UInt16
  oldCredit : ℕ → UInt16
  consensus : UInt64

end Fusa

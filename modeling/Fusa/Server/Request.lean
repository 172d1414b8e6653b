import Fusa.Driver.Hook

/-! How `rpc_func_impl` admits and executes one request. -/
namespace Fusa.Server

/-- The consensus check: credit 0 is rejected, and one just switched to 1 unless
`consensus % machine_num == 0`. -/
def rejectResp (machineNum : ℕ) (newCredit oldCredit : UInt16) (consensus : UInt64) : Bool :=
  if newCredit ^^^ oldCredit = 1 then
    if newCredit = 1 then
      if consensus.toNat % machineNum = 0 then false else true
    else newCredit == 0
  else newCredit == 0

/-- The check against the strategy arrays as they stand. -/
def rejects (machineNum : ℕ) (v : StrategyView) (remoteAddr : ℕ) : Bool :=
  rejectResp machineNum (v.credit (counterIdx remoteAddr)) (v.oldCredit (counterIdx remoteAddr))
    v.consensus

/-- `__atomic_compare_exchange_n`: success, the memory, and what is left in `expected`. -/
def compareExchange (mem : ℕ → UInt64) (addr : ℕ) (expected desired : UInt64) :
    Bool × (ℕ → UInt64) × UInt64 :=
  if mem addr = expected then (true, Function.update mem addr desired, expected)
  else (false, mem, mem addr)

/-- Memory, request slot and response slot after a request was handled. -/
structure Handled where
  mem : ℕ → UInt64
  req : RpcOp
  resp : RpcOp

/-- The scan of a request; an accepted CAS and a rejected one that is no FAA write the response. -/
def handle (reject : Bool) (mem : ℕ → UInt64) (req resp : RpcOp) : Handled :=
  if req.opcode = casOpCode ∧ reject = false then
    if mem req.remoteAddr = req.cmp then
      let (_, mem', cmp') := compareExchange mem req.remoteAddr req.cmp req.swap
      ⟨mem', { req with cmp := cmp', crc := 0 }, { resp with comp := cmp', crc := crcCheckMagic }⟩
    else
      ⟨mem, { req with crc := 0 }, { resp with comp := mem req.remoteAddr, crc := crcCheckMagic }⟩
  else if req.opcode = faaOpCode then ⟨mem, { req with crc := 0 }, resp⟩
  else if reject = true then
    ⟨mem, { req with crc := 0 }, { resp with comp := req.swap, crc := crcCheckMagic }⟩
  else ⟨mem, { req with crc := 0 }, resp⟩

def writesResp (reject : Bool) (req : RpcOp) : Bool :=
  if req.opcode = casOpCode ∧ reject = false then true
  else if req.opcode = faaOpCode then false
  else reject

section
variable (mem : ℕ → UInt64) {req : RpcOp} (resp : RpcOp) (reject : Bool)

theorem handle_cas (h : req.opcode = casOpCode) : handle false mem req resp =
      ⟨if mem req.remoteAddr = req.cmp then Function.update mem req.remoteAddr req.swap else mem,
        { req with crc := 0 },
        { resp with comp := mem req.remoteAddr, crc := crcCheckMagic }⟩ := by
  by_cases hc : mem req.remoteAddr = req.cmp
  · simp [handle, h, hc, compareExchange]
  · simp [handle, h, hc]

theorem handle_cas_reject (h : req.opcode = casOpCode) : handle true mem req resp =
      ⟨mem, { req with crc := 0 }, { resp with comp := req.swap, crc := crcCheckMagic }⟩ := by
  simp [handle, h, casOpCode, faaOpCode]

theorem handle_faa (h : req.opcode = faaOpCode) :
    handle reject mem req resp = ⟨mem, { req with crc := 0 }, resp⟩ := by
  simp [handle, h, casOpCode, faaOpCode]

theorem handle_crc : (handle reject mem req resp).req.crc = 0 := by
  unfold handle
  split
  · split <;> rfl
  · split
    · rfl
    · split <;> rfl

theorem handle_resp_crc {reject : Bool} (h : writesResp reject req = true) :
    (handle reject mem req resp).resp.crc = crcCheckMagic := by
  unfold writesResp at h
  unfold handle
  split at h
  · rw [if_pos ‹_›]
    split <;> rfl
  · rw [if_neg ‹_›]
    split at h
    · cases h
    · rw [if_neg ‹_›, if_pos h]

theorem writesResp_cas (h : req.opcode = casOpCode) : writesResp reject req = true := by
  cases reject <;> simp [writesResp, h, casOpCode, faaOpCode]

end

end Fusa.Server

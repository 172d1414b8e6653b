import Fusa.Driver.PostChain

/-! What a failed `_mlx5_post_send` leaves: the work requests in front of the failing one, its
fence and its doorbell. -/
namespace Fusa.Driver.Sq
open Bytes List

section
variable {cfg : Cfg} {ram : Ram} {b : Build} {w : SendWr} {qp : Qp} {l : Locals} {nreq : ℕ}

end

section
variable (cfg : Cfg) (ram : Ram) (qp : Qp) (pre : List SendWr) (w : SendWr)

structure AsAfter (qp qp' : Qp) : Prop where
  head : qp.head = qp'.head
  curPost : qp.curPost = qp'.curPost
  fmCache : qp.fmCache = qp'.fmCache
  db : qp.db = qp'.db
  reg : qp.reg = qp'.reg

/-- The failed call reports `w` and leaves what posting `pre` alone leaves. -/
structure Clean (rest : List SendWr) : Prop where
  badWr : (postSend cfg ram qp (pre ++ w :: rest)).2.map Prod.snd = some pre.length
  state : AsAfter (postSend cfg ram qp (pre ++ w :: rest)).1 (postSend cfg ram qp pre).1

end

section
variable {cfg : Cfg} {ram : Ram} {qp : Qp} {l : Locals} {nreq : ℕ} {pre rest : List SendWr}
  {w : SendWr}

end

/-- A reliable connection with four basic blocks and no atomics. -/
def fourBlocks : Cfg where
  qpType := .rc
  qpNum := 71
  wqeCnt := 4
  wqeCnt_pos := by decide
  maxPost := 4
  maxGs := 1
  qpStateMaxGs := 1
  maxInlineData := 28
  maxInlineData_lt := by decide
  sqSignalBits := 0
  atomicsEnabled := false
  underlay := false
  csumUnderlayUd := false
  csumRawOverEth := false
  wqSig := false
  maxTso := 0
  maxTsoHeader := 0
  ethMinInlineSize := 18
  ethMinInlineSize_eq := by decide
  shutUpBf := false
  preferBf := false
  uuarn := true
  bfBufSize := 256

end Fusa.Driver.Sq

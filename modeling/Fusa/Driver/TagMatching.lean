import Fusa.Driver.Segments
import Fusa.Lib.Queues
import Fusa.Lib.Transition

/-! Tag matching: `mlx5_post_srq_ops`, the device that executes the operations, and
`handle_tag_matching`, which takes their completions. -/
namespace Fusa.Driver.Tm
open Transition
open Sq (Errno)

/-- The sizes of a tag matching SRQ and of its command queue pair. -/
structure Cfg where
  maxNumTags : ℕ
  wqeCnt : ℕ
  maxPost : ℕ
  maxPost_le : maxPost ≤ wqeCnt

structure TagEntry where
  next : Option ℕ
  wrId : UInt64
  phaseCnt : ℕ
  ptr : UInt64
  size : UInt32
  expectCqe : UInt8

structure SrqOp where
  tag : Option ℕ
  wrId : UInt64
  wqeHead : ℕ
deriving DecidableEq

/-- The fields of `mlx5_srq` for tag matching, with the command send queue's `head` and `tail`. -/
structure Srq where
  tmList : ℕ → TagEntry
  tmHead : ℕ
  tmTail : ℕ
  op : ℕ → SrqOp
  opHead : ℕ
  opTail : ℕ
  unexpOut : ℕ
  head : ℕ
  tail : ℕ

/-- The operation of an `ibv_ops_wr`. The list of an added tag has at most one element. -/
inductive TmOp
  | add (recvWrId : UInt64) (sg : Option (UInt64 × UInt32))
  | del (handle : ℕ)
  | sync
  | unknown

/-- `ibv_ops_wr`; `sync` is `unexpected_cnt` where `IBV_OPS_TM_SYNC` is set. -/
structure OpsWr where
  wrId : UInt64
  signaled : Bool
  sync : Option ℕ
  op : TmOp

/-- What a WQE asks of the device; an append tells the next entry, `recvWrId` is history. -/
inductive WqeOp
  | append (index : ℕ) (recvWrId : UInt64)
  | remove (index : ℕ)
  | nop
deriving DecidableEq

/-- A WQE of the command queue pair. The request's `wr_id` and the number of the WQE are history. -/
structure Wqe where
  op : WqeOp
  signaled : Bool
  wrId : UInt64
  wqeHead : ℕ
deriving DecidableEq

namespace Srq

def edit (i : ℕ) (f : TagEntry → TagEntry) (s : Srq) : Srq :=
  { s with tmList := Function.update s.tmList i (f (s.tmList i)) }

variable (cfg : Cfg)

/-- `mlx5_create_srq_ex`. -/
def create : Srq where
  tmList i := ⟨if i < cfg.maxNumTags then some (i + 1) else none, 0, 0, 0, 0, 0⟩
  tmHead := 0
  tmTail := cfg.maxNumTags
  op _ := ⟨none, 0, 0⟩
  opHead := 0
  opTail := 0
  unexpOut := 0
  head := 0
  tail := 0

def freeList (s : Srq) : List ℕ :=
  LinkedQueue.cells (fun i => (s.tmList i).next) (cfg.maxNumTags + 1) (some s.tmHead)

def held (s : Srq) : List ℕ := (List.range (cfg.maxNumTags + 1)).filter fun i => i ∉ s.freeList cfg

def releaseTag (i : ℕ) (s : Srq) : Srq :=
  let s := s.edit i fun e => { e with expectCqe := e.expectCqe - 1 }
  if (s.tmList i).expectCqe = 0 then
    let s := s.edit i fun e => { e with next := none }
    { s.edit s.tmTail fun e => { e with next := some i } with tmTail := i }
  else s

def addOp (tag : Option ℕ) (wrId : UInt64) (nreq : ℕ) (s : Srq) : Srq :=
  let s := { s with
    op := Function.update s.op (s.opTail % cfg.wqeCnt) ⟨tag, wrId, s.head + nreq⟩
    opTail := s.opTail + 1 }
  match tag with
  | some i => s.edit i fun e => { e with expectCqe := e.expectCqe + 1 }
  | none => s

def wqOverflow (nreq : ℕ) (s : Srq) : Bool := cfg.maxPost ≤ s.head - s.tail + nreq

def takeTag (next : ℕ) (wr : OpsWr) (recvWrId : UInt64) (s : Srq) : Srq :=
  let s := { s with unexpOut := wr.sync.getD s.unexpOut }
  { s.edit s.tmHead fun e =>
      { e with
        next := none
        wrId := recvWrId
        phaseCnt := s.unexpOut
        expectCqe := e.expectCqe + 1 } with
    tmHead := next }

/-- The buffer of an entry. That of an empty message is left as it was. -/
def setBuffer (i : ℕ) (sg : Option (UInt64 × UInt32)) (s : Srq) : Srq :=
  match sg with
  | some (addr, length) =>
    if length = 0 then s else s.edit i fun e => { e with ptr := addr, size := length }
  | none => s

def signal (tag : Option ℕ) (wr : OpsWr) (nreq : ℕ) (s : Srq) : Srq :=
  if wr.signaled then s.addOp cfg tag wr.wrId nreq else s

/-- One turn of the loop of `mlx5_post_srq_ops`: the SRQ and the WQE. -/
def turn (nreq : ℕ) (wr : OpsWr) (s : Srq) : Except Errno (Srq × Wqe) :=
  if s.wqOverflow cfg nreq then .error .enomem
  else
    match wr.op with
    | .add recvWrId sg =>
      match (s.tmList s.tmHead).next with
      | none => .error .enomem
      | some next =>
        .ok (((s.takeTag next wr recvWrId).signal cfg (some s.tmHead) wr nreq).setBuffer
            s.tmHead sg,
          ⟨.append next recvWrId, wr.signaled, wr.wrId, s.head + nreq⟩)
    | .del handle =>
      .ok (if wr.signaled then s.addOp cfg (some handle) wr.wrId nreq else s.releaseTag handle,
        ⟨.remove handle, wr.signaled, wr.wrId, s.head + nreq⟩)
    | .sync =>
      .ok (s.signal cfg none wr nreq, ⟨.nop, wr.signaled, wr.wrId, s.head + nreq⟩)
    | .unknown => .error .einval

end Srq

inductive ConsumedOp
  | consumed
  | consumedSwRdnv
  | expected
  | consumedMsg
  | consumedMsgSwRdnv
  | msgCompletionCanceled
deriving DecidableEq

inductive ListOp
  | append
  | remove
  | noop
deriving DecidableEq

def ConsumedOp.isComplete : ConsumedOp → Bool
  | consumed | consumedSwRdnv => false
  | _ => true

inductive WcStatus
  | success
  | tmRndvIncomplete
  | tmErr
  | locLenErr
  | generalErr
deriving DecidableEq

def ConsumedOp.status : ConsumedOp → WcStatus
  | consumedMsgSwRdnv | consumedSwRdnv | msgCompletionCanceled => .tmRndvIncomplete
  | _ => .success

/-- What is reported; `wrId` is `none` where it is left alone, `copied` where inline data goes. -/
structure Wc where
  status : WcStatus
  wrId : Option UInt64
  syncReq : Bool
  copied : Option (UInt64 × UInt32)

namespace Srq

/-- `handle_tag_matching` of entry `i`; `scatter` is `byte_cnt` if the completion has the data. -/
def handleConsumed (i : ℕ) (op : ConsumedOp) (scatter : Option UInt32) (s : Srq) : Srq × Wc :=
  let tag := s.tmList i
  if tag.expectCqe = 0 then (s, ⟨.generalErr, none, false, none⟩)
  else
    let s := if op.isComplete then s.releaseTag i else s
    match scatter with
    | none => (s, ⟨op.status, some tag.wrId, false, none⟩)
    | some byteCnt =>
      if tag.size < byteCnt then (s, ⟨.locLenErr, some tag.wrId, false, none⟩)
      else (s, ⟨op.status, some tag.wrId, false, some (tag.ptr, byteCnt)⟩)

/-- `handle_tag_matching` of a list operation. -/
def handleListOp (cfg : Cfg) (op : ListOp) (success : Bool) (hwPhaseCnt : ℕ) (s : Srq) : Srq × Wc :=
  let status := if op = .remove ∧ ¬ success then WcStatus.tmErr else .success
  let o := s.op (s.opHead % cfg.wqeCnt)
  let s := { s with opHead := s.opHead + 1 }
  match o.tag with
  | some i =>
    let s := s.releaseTag i
    let s := if op = .remove ∧ status = .success then s.releaseTag i else s
    ({ s with tail := o.wqeHead + 1 },
      ⟨status, some o.wrId, hwPhaseCnt ≠ (s.tmList i).phaseCnt, none⟩)
  | none => ({ s with tail := o.wqeHead + 1 }, ⟨status, some o.wrId, false, none⟩)

end Srq

/-- The completion of a list operation; what it was about is history. -/
structure OpCqe where
  op : ListOp
  tag : Option ℕ
  gone : Option UInt64
  wrId : UInt64
  wqeHead : ℕ
deriving DecidableEq

/-- The completions that name the entry; a removal stands for the consumption it prevents, too. -/
def OpCqe.count (i : ℕ) (c : OpCqe) : ℕ :=
  if c.tag = some i then if c.gone.isSome then 2 else 1 else 0

/-- The entry of the next append, the matching list, and what has a completion to come; a tag is
its entry and, as history, its `recv_wr_id`. -/
structure Device where
  tail : ℕ
  listed : List (ℕ × UInt64)
  hits : List (ℕ × UInt64)
  done : List OpCqe

namespace Device

def create : Device := ⟨0, [], [], []⟩

def report (w : Wqe) (op : ListOp) (tag : Option ℕ) (gone : Option UInt64) (d : Device) : Device :=
  if w.signaled then { d with done := d.done ++ [⟨op, tag, gone, w.wrId, w.wqeHead⟩] } else d

def named (index : ℕ) (e : ℕ × UInt64) : Bool := e.1 = index

/-- The device executes a WQE. A removal fails where the tag is not in the list. -/
def execOne (d : Device) (w : Wqe) : Device :=
  match w.op with
  | .append index recvWrId =>
    { d with tail := index, listed := d.listed ++ [(d.tail, recvWrId)] }.report w .append
      (some d.tail) none
  | .remove index =>
    { d with listed := d.listed.eraseP (named index) }.report w .remove (some index)
      ((d.listed.find? (named index)).map Prod.snd)
  | .nop => d.report w .noop none none

def flush (d : Device) (queue : List Wqe) : Device := queue.foldl execOne d

def count (d : Device) (i : ℕ) : ℕ :=
  (d.listed.map Prod.fst).count i + (d.hits.map Prod.fst).count i +
    (d.done.map (OpCqe.count i)).sum

end Device

/-- The SRQ, the turns of the call, the WQEs not executed, and the device. -/
structure State where
  srq : Srq
  nreq : ℕ
  queue : List Wqe
  dev : Device

inductive Label
  | turn (wr : OpsWr)
  | out
  | exec
  | consume (k : ℕ)
  | consumedCqe (k : ℕ) (op : ConsumedOp) (scatter : Option UInt32)
  | listCqe (hwPhaseCnt : ℕ)

namespace State

/-- The end of `mlx5_post_srq_ops`. -/
def out (s : State) : State := { s with srq.head := s.srq.head + s.nreq, nreq := 0 }

def built (r : Srq × Wqe) (s : State) : State :=
  { s with srq := r.1, nreq := s.nreq + 1, queue := s.queue ++ [r.2] }

/-- The device consumes the tag `e` at a place of the matching list. -/
def hit (k : ℕ) (e : ℕ × UInt64) (s : State) : State :=
  { s with dev.listed := s.dev.listed.eraseIdx k, dev.hits := s.dev.hits ++ [e] }

/-- One step of driver or device: a WQE may run before its doorbell, lists complete in order. -/
def next (cfg : Cfg) (s : State) : Label → Option State
  | .turn wr =>
    match s.srq.turn cfg s.nreq wr with
    | .error _ => some s
    | .ok r => some (s.built r)
  | .out => some s.out
  | .exec =>
    match s.queue with
    | [] => none
    | w :: queue => some { s with queue, dev := s.dev.execOne w }
  | .consume k => do
    let e ← s.dev.listed[k]?
    some (s.hit k e)
  | .consumedCqe k op scatter =>
    if s.nreq = 0 then do
      let e ← s.dev.hits[k]?
      let hits := if op.isComplete then s.dev.hits.eraseIdx k else s.dev.hits
      some { s with srq := (s.srq.handleConsumed e.1 op scatter).1, dev.hits := hits }
    else none
  | .listCqe hwPhaseCnt =>
    if s.nreq = 0 then
      match s.dev.done with
      | [] => none
      | c :: done =>
        let r := s.srq.handleListOp cfg c.op c.gone.isSome hwPhaseCnt
        some { s with srq := r.1, dev.done := done }
    else none

def system (cfg : Cfg) : System State Label :=
  ⟨fun s => s = ⟨.create cfg, 0, [], .create⟩, next cfg⟩

def postSrqOps (cfg : Cfg) : List OpsWr → State → State × Option Errno
  | [], s => (s.out, none)
  | wr :: wrs, s =>
    match s.srq.turn cfg s.nreq wr with
    | .error e => (s.out, some e)
    | .ok r => postSrqOps cfg wrs (s.built r)

def due (s : State) (i : ℕ) : ℕ := (s.dev.flush s.queue).count i

structure Right (cfg : Cfg) (s : State) : Prop where
  free : ∀ i ≤ cfg.maxNumTags, i ∈ s.srq.freeList cfg ↔ s.due i = 0
  handed : ∀ wr recvWrId sg r, wr.op = .add recvWrId sg → s.srq.turn cfg s.nreq wr = .ok r →
    s.due s.srq.tmHead = 0
  full : ∀ wr recvWrId sg e, wr.op = .add recvWrId sg → s.srq.wqOverflow cfg s.nreq = false →
    s.srq.turn cfg s.nreq wr = .error e → (s.srq.held cfg).length = cfg.maxNumTags
  consumed : ∀ e ∈ s.dev.hits, ∀ op scatter,
    (s.srq.handleConsumed e.1 op scatter).2.wrId = some e.2
  listOp : ∀ c done, s.dev.done = c :: done → ∀ hwPhaseCnt,
    (s.srq.handleListOp cfg c.op c.gone.isSome hwPhaseCnt).2.wrId = some c.wrId

/-- A removal names an entry with few completions to come, and one without completion a tag in the
list that nothing else removes or consumes before. -/
def Orderly (s : State) : Label → Prop
  | .turn wr =>
    match wr.op with
    | .del handle =>
      if wr.signaled then 0 < s.due handle ∧ s.due handle < 255
      else handle ∈ (s.dev.flush s.queue).listed.map Prod.fst
    | _ => True
  | .consume k => ∀ e ∈ s.dev.listed[k]?, ∀ w ∈ s.queue, w.op = .remove e.1 → w.signaled = true
  | _ => True

end State

end Fusa.Driver.Tm

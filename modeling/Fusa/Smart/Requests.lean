import Mathlib.Algebra.BigOperators.Fin
import Fusa.Lib.Transition

/-! One thread of the `Initiator`: its tasks post batches, and `read_sync` and `write_sync` poll the
same completion queues. -/
namespace Fusa.Smart.Requests
open Transition Function

def makeWrId (taskId tid memNodeId wrSize : ℕ) : ℕ :=
  taskId * 2 ^ 56 + tid * 2 ^ 48 + memNodeId * 2 ^ 32 + wrSize

/-- 16 bits of the id, of which `node_t` keeps 8. -/
def memNodeId (wrId : ℕ) : ℕ := wrId / 2 ^ 32 % 2 ^ 16 % 2 ^ 8

def wrSize (wrId : ℕ) : ℕ := wrId % 2 ^ 32

structure WorkRequest where
  wrId : ℕ
  signaled : Bool

/-- The requests a task has added and not posted; `size` is their number. -/
structure RequestBuffer where
  wrList : List WorkRequest
  memNodeId : ℕ

def RequestBuffer.kCapacity : ℕ := 16

/-- A completion at `node`: its post, and the number of requests of the batch it ends. -/
structure Completion where
  node : ℕ
  wrId : ℕ
  stamp : ℕ
  size : ℕ
deriving DecidableEq

/-- A task in `sync`: its snapshot of `post_req`, its node, and the posts before it. -/
structure Waiting where
  postReq : ℕ → ℕ
  id : ℕ
  stamp : ℕ

/-- A `sync` called after `stamp` posts returns, or a direct call whose request is that post. -/
inductive Return
  | sync (stamp : ℕ)
  | direct (stamp : ℕ)
deriving DecidableEq

/-- `qp_state` and the buffers; completions to arrive and in each queue, the tasks in `sync`, the
request a direct call spins for, and the requests polled. -/
structure State where
  reqBuf : ℕ → RequestBuffer
  postReq : ℕ → ℕ
  ackReq : ℕ → ℕ
  inflightAck : ℤ
  wire : ℕ → List Completion
  cq : ℕ → List (Completion × Bool)
  waiting : ℕ → Option Waiting
  spinning : Option (ℕ × ℕ)
  clock : ℕ
  polled : ℕ → ℕ
  returns : List Return

/-- `cqOf` is the completion queue of the thread's queue pair to a node. -/
structure Config where
  maxNodes : ℕ
  maxNodes_le : maxNodes ≤ 256
  tid : ℕ
  tid_lt : tid < 128
  cqOf : ℕ → ℕ

def kMaxTasksPerThread : ℕ := 64

/-- What tasks do, where a completion arrives, and how many requests a failed post sent. -/
inductive Label
  | add (task node : ℕ) (signaled : Bool)
  | post (task : ℕ) (failed : Option ℕ)
  | sync (task : ℕ) (failed : Option ℕ)
  | check (task : ℕ)
  | poll (node : ℕ)
  | direct (node : ℕ) (posted : Bool)
  | spin
  | arrive (node : ℕ) (success : Bool)

def completions (node stamp size : ℕ) : List WorkRequest → List Completion
  | [] => []
  | [wr] => if wr.signaled then [⟨node, wr.wrId, stamp, size⟩] else []
  | wr :: wr' :: wrs =>
    if wr.signaled then ⟨node, wr.wrId, stamp, 0⟩ :: completions node stamp size (wr' :: wrs)
    else completions node stamp size (wr' :: wrs)

def signalLast (wrId : ℕ) : List WorkRequest → List WorkRequest
  | [] => []
  | [_] => [⟨wrId, true⟩]
  | wr :: wr' :: wrs => wr :: signalLast wrId (wr' :: wrs)

variable (cfg : Config) (s : State)

/-- `add_request` without the `sync` for a full buffer or another node. -/
def addRequest (task node : ℕ) (signaled : Bool) : Option State :=
  let buf := s.reqBuf task
  if buf.wrList ≠ [] ∧ buf.memNodeId ≠ node then none
  else if buf.wrList.length + 1 = RequestBuffer.kCapacity then none
  else some { s with reqBuf := update s.reqBuf task ⟨buf.wrList ++ [⟨0, signaled⟩], node⟩ }

/-- The list as `post_request` hands it to `post_send`. -/
def RequestBuffer.batch (buf : RequestBuffer) (task : ℕ) : List WorkRequest :=
  signalLast (makeWrId task cfg.tid buf.memNodeId buf.wrList.length) buf.wrList

def postRequest (task : ℕ) (failed : Option ℕ) : State :=
  let buf := s.reqBuf task
  if buf.wrList = [] then s
  else
    match failed with
    | some k =>
      { s with
        reqBuf := update s.reqBuf task { buf with wrList := buf.batch cfg task }
        wire := update s.wire buf.memNodeId (s.wire buf.memNodeId ++
          completions buf.memNodeId s.clock 0
            ((buf.batch cfg task).take (min k (buf.wrList.length - 1))))
        clock := s.clock + 1 }
    | none =>
      { s with
        reqBuf := update s.reqBuf task { buf with wrList := [] }
        postReq := update s.postReq buf.memNodeId
          (s.postReq buf.memNodeId + buf.wrList.length)
        inflightAck := s.inflightAck + buf.wrList.length
        wire := update s.wire buf.memNodeId (s.wire buf.memNodeId ++
          completions buf.memNodeId s.clock buf.wrList.length (buf.batch cfg task))
        clock := s.clock + 1 }

/-- `sync` up to its loop; it returns at once when the post fails. -/
def syncBegin (task : ℕ) (failed : Option ℕ) : State :=
  let s' := postRequest cfg s task failed
  if (s.reqBuf task).wrList ≠ [] ∧ failed.isSome then s'
  else
    { s' with waiting := update s'.waiting task (some ⟨s'.postReq, 0, s'.clock⟩) }

def check (task : ℕ) : Option State := do
  let w ← s.waiting task
  if w.id = cfg.maxNodes then
    some { s with
      waiting := update s.waiting task none
      returns := .sync w.stamp :: s.returns }
  else if s.ackReq w.id < w.postReq w.id then none
  else some { s with waiting := update s.waiting task (some { w with id := w.id + 1 }) }

/-- A completion as `poll_once` books it. -/
def account (c : Completion) : State :=
  { s with
    ackReq := update s.ackReq (memNodeId c.wrId)
      (s.ackReq (memNodeId c.wrId) + wrSize c.wrId)
    inflightAck := s.inflightAck - wrSize c.wrId }

/-- `ibv_poll_cq` takes up to `count` completions out of the queue. -/
def takeCq (q count : ℕ) : State :=
  { s with
    cq := update s.cq q ((s.cq q).drop count)
    polled := fun n => s.polled n + ((((s.cq q).take count).map Prod.fst).map
      fun c => if c.node = n then c.size else 0).sum }

/-- `do_poll` reports an error if one of the completions has one, and then none is booked. -/
def pollOnce (node : ℕ) : State :=
  if s.inflightAck = 0 then s
  else
    let taken := (s.cq (cfg.cqOf node)).take 16
    let s' := takeCq s (cfg.cqOf node) 16
    if taken.all Prod.snd then (taken.map Prod.fst).foldl account s' else s'

/-- `read_sync` and `write_sync` up to their loop; the result of `post_send` is not looked at. -/
def directBegin (node : ℕ) (posted : Bool) : State :=
  { s with
    wire := if posted then
        update s.wire node (s.wire node ++ [⟨node, 0, s.clock, 0⟩])
      else s.wire
    spinning := some (node, s.clock)
    clock := s.clock + 1 }

/-- One turn of their loop that finds a completion; a successful one ends it. -/
def spin : Option State := do
  let (node, stamp) ← s.spinning
  let (_, success) ← (s.cq (cfg.cqOf node)).head?
  let s' := takeCq s (cfg.cqOf node) 1
  if success then some { s' with spinning := none, returns := .direct stamp :: s'.returns }
  else some s'

def arrive (node : ℕ) (success : Bool) : Option State :=
  match s.wire node with
  | [] => none
  | c :: rest =>
    some { s with
      wire := update s.wire node rest
      cq := update s.cq (cfg.cqOf node) (s.cq (cfg.cqOf node) ++ [(c, success)]) }

def Runs (task : ℕ) : Prop := task < kMaxTasksPerThread ∧ s.waiting task = none ∧ s.spinning = none
deriving Decidable

def next : Label → Option State
  | .add task node signaled =>
    if Runs s task ∧ node < cfg.maxNodes then addRequest s task node signaled else none
  | .post task failed => if Runs s task then some (postRequest cfg s task failed) else none
  | .sync task failed => if Runs s task then some (syncBegin cfg s task failed) else none
  | .check task => if s.spinning = none then check cfg s task else none
  | .poll node =>
    if s.spinning = none ∧ node < cfg.maxNodes then some (pollOnce cfg s node) else none
  | .direct node posted =>
    if s.spinning = none ∧ node < cfg.maxNodes then some (directBegin s node posted) else none
  | .spin => spin cfg s
  | .arrive node success => arrive cfg s node success

def initial : State where
  reqBuf _ := ⟨[], 0⟩
  postReq _ := 0
  ackReq _ := 0
  inflightAck := 0
  wire _ := []
  cq _ := []
  waiting _ := none
  spinning := none
  clock := 0
  polled _ := 0
  returns := []

def system : System State Label where
  start s := s = initial
  next := next cfg

/-- The batches, or the direct request, that the call had to wait for have completed. -/
def Return.Done : Return → Prop
  | .sync stamp => ∀ n, ∀ c ∈ s.wire n, c.size ≠ 0 → stamp ≤ c.stamp
  | .direct stamp => ∀ n, ∀ c ∈ s.wire n, c.stamp ≠ stamp

structure Exact (s : State) : Prop where
  attributed : ∀ n, s.ackReq n = s.polled n
  inflight : s.inflightAck = ∑ n ∈ Finset.range cfg.maxNodes, ((s.postReq n : ℤ) - s.ackReq n)
  returned : ∀ r ∈ s.returns, r.Done s

/-- Nothing fails, and a direct call starts when nothing is to come in its queue. -/
def Calm : Label → Prop
  | .post _ failed => failed = none
  | .sync _ failed => failed = none
  | .direct node posted => posted = true ∧ s.cq (cfg.cqOf node) = [] ∧
      ∀ n < cfg.maxNodes, cfg.cqOf n = cfg.cqOf node → s.wire n = []
  | .arrive _ success => success = true
  | _ => True

end Fusa.Smart.Requests

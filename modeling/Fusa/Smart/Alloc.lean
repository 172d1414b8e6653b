import Fusa.Smart.FreeList

/-! Remote memory allocation by any number of threads: free lists of the thread, and chunks from the
super chunk of the memory node. -/
namespace Fusa.Smart.Alloc
open Cover Transition Function

/-- The words of the super chunk that allocation uses, at the node or cached by a thread. -/
structure SuperChunk where
  allocChunk : ℕ
  maxChunk : ℕ

/-- A call of `alloc_memory` that has to go to the memory node. -/
structure Request (ν : Type) where
  node : ν
  size : ℕ

/-- The argument of `do_alloc_chunk`: a `size_t` as an `int`, added as a `uint64_t`. -/
def intCount (size : ℕ) : ℕ :=
  let count := (size + kChunkSize - 1) % 2 ^ 64 / kChunkSize % 2 ^ 32
  if count < 2 ^ 31 then count else 2 ^ 64 - 2 ^ 32 + count

variable {θ ν : Type}

def Request.count (r : Request ν) : ℕ := if kChunkSize ≤ r.size then intCount r.size else 1

def Request.chunks (r : Request ν) : ℕ := if kChunkSize ≤ r.size then chunksOf r.size else 1

/-- The super chunks set up: `alloc_chunk` is 1, or past chunks taken below `max_chunk`. -/
structure Setup (ν : Type) where
  first : ν → ℕ
  limit : ν → ℕ
  one_le_first : ∀ n, 1 ≤ first n
  first_le : ∀ n, first n ≤ max 1 (limit n)

/-- The number of chunks is one an `int` holds. -/
def Request.Small (r : Request ν) : Prop := r.size ≤ (2 ^ 31 - 1) * kChunkSize
deriving Decidable

/-- A request that is not small is refused at every `alloc_chunk`, and the memory is one that
`offset` reaches. -/
def Fits (C : Setup ν) (r : Request ν) : Prop :=
  (r.Small ∨ ∀ k ≤ max 1 (C.limit r.node), C.limit r.node < (k + r.count) % 2 ^ 64) ∧
    C.limit r.node ≤ 2 ^ 34
deriving Decidable

theorem intCount_eq {size : ℕ} (h : size ≤ (2 ^ 31 - 1) * kChunkSize) :
    intCount size = chunksOf size := by
  unfold intCount chunksOf
  unfold kChunkSize at h ⊢
  simp only
  split_ifs <;> omega

variable {C : Setup ν} {r : Request ν}

theorem Request.Small.count (h : r.Small) : r.count = r.chunks := by
  unfold Request.count Request.chunks
  rw [intCount_eq h]

theorem Request.Small.chunks_lt (h : r.Small) : r.chunks < 2 ^ 31 := by
  unfold Request.Small at h
  unfold Request.chunks chunksOf
  unfold kChunkSize at h ⊢
  split_ifs <;> omega

theorem Request.chunks_pos (r : Request ν) : 0 < r.chunks := by
  unfold Request.chunks chunksOf kChunkSize
  split_ifs <;> omega

/-- Where in `do_alloc_chunk` the task with `task_lock` is. -/
inductive Progress (ν : Type)
  | find (r : Request ν)
  | swap (r : Request ν) (old : ℕ)
  | back (r : Request ν) (old found : ℕ)

/-- The thread-local data; `waiting` are the calls of tasks that wait for `task_lock`. -/
structure Thread (ν : Type) where
  freeList : ν → FreeListArray
  superChunk : ν → Option SuperChunk
  waiting : List (Request ν)
  holder : Option (Progress ν)

/-- A live allocation: the address returned, and the size asked for. -/
structure Block (ν : Type) where
  node : ν
  addr : ℕ
  size : ℕ
deriving DecidableEq

/-- Threads of all clients, the memory nodes, and the allocations not freed yet. -/
structure State (θ ν : Type) where
  nodes : ν → SuperChunk
  threads : θ → Thread ν
  live : List (Block ν)

/-- A task allocates or frees, the `i`-th waiting call gets `task_lock`, or its holder goes on. -/
inductive Label (θ ν : Type)
  | alloc (t : θ) (n : ν) (size : ℕ)
  | free (t : θ) (b : Block ν)
  | lock (t : θ) (i : ℕ)
  | proceed (t : θ)

variable [DecidableEq θ] [DecidableEq ν]

def State.set (s : State θ ν) (t : θ) (th : Thread ν) (live : List (Block ν)) : State θ ν :=
  ⟨s.nodes, update s.threads t th, live⟩

def Thread.setLists (th : Thread ν) (n : ν) (sz : FreeListArray) : Thread ν :=
  { th with freeList := update th.freeList n sz }

def Thread.cache (th : Thread ν) (n : ν) (entry : Option SuperChunk) : Thread ν :=
  { th with superChunk := update th.superChunk n entry }

/-- The answer to a compare-and-swap is written over the cached `alloc_chunk`. -/
def Thread.learn (th : Thread ν) (n : ν) (found : ℕ) : Thread ν :=
  th.cache n ((th.superChunk n).map fun entry => { entry with allocChunk := found })

def Thread.setHolder (th : Thread ν) (p : Option (Progress ν)) : Thread ν :=
  { th with holder := p }

def Thread.wait (th : Thread ν) (r : Request ν) : Thread ν :=
  { th with waiting := r :: th.waiting }

variable (s : State θ ν) (t : θ)

def allocMemory (n : ν) (size : ℕ) : State θ ν :=
  if kChunkSize ≤ size then s.set t ((s.threads t).wait ⟨n, size⟩) s.live
  else
    match allocSmall ((s.threads t).freeList n) size with
    | some (sz, addr) => s.set t ((s.threads t).setLists n sz) (⟨n, addr, size⟩ :: s.live)
    | none => s.set t ((s.threads t).wait ⟨n, size⟩) s.live

/-- A free passes the address and size of a live allocation. -/
def free (b : Block ν) : Option (State θ ν) :=
  if b ∈ s.live then
    some (s.set t ((s.threads t).setLists b.node
      (freeMemory ((s.threads t).freeList b.node) b.addr b.size)) (s.live.erase b))
  else none

/-- `TaskLockGuard`. -/
def lock (i : ℕ) : Option (State θ ν) :=
  match (s.threads t).holder, (s.threads t).waiting[i]? with
  | none, some r =>
    some (s.set t { (s.threads t).setHolder (some (.find r)) with
      waiting := (s.threads t).waiting.eraseIdx i } s.live)
  | _, _ => none

/-- The value of the 48-bit field `offset` for a chunk. -/
def chunkAddr (chunk : ℕ) : ℕ := chunk * kChunkSize % 2 ^ 48

/-- The free lists of the node once the chunk at `addr` is there for the request. -/
def Thread.listsWith (th : Thread ν) (r : Request ν) (addr : ℕ) : FreeListArray :=
  if kChunkSize ≤ r.size then th.freeList r.node
  else splitChunk (th.freeList r.node) addr (levelOf r.size)

/-- The head of the loop; the first time the thread reads the super chunk of the node. -/
def find (r : Request ν) : State θ ν :=
  match (s.threads t).superChunk r.node with
  | none => s.set t ((s.threads t).cache r.node (some (s.nodes r.node))) s.live
  | some entry =>
    if (entry.allocChunk + r.count) % 2 ^ 64 ≤ entry.maxChunk then
      s.set t ((s.threads t).setHolder (some (.swap r entry.allocChunk))) s.live
    else s.set t ((s.threads t).setHolder none) s.live

def swap (r : Request ν) (old : ℕ) : State θ ν :=
  { s.set t ((s.threads t).setHolder
      (some (.back r old (s.nodes r.node).allocChunk))) s.live with
    nodes := update s.nodes r.node
      { s.nodes r.node with
        allocChunk := if (s.nodes r.node).allocChunk = old then (old + r.count) % 2 ^ 64
          else (s.nodes r.node).allocChunk } }

def back (r : Request ν) (old found : ℕ) : State θ ν :=
  let th := (s.threads t).learn r.node found
  if found = old then
    s.set t ((th.setLists r.node (th.listsWith r (chunkAddr found))).setHolder none)
      (⟨r.node, chunkAddr found, r.size⟩ :: s.live)
  else s.set t (th.setHolder (some (.find r))) s.live

def proceed : Option (State θ ν) :=
  match (s.threads t).holder with
  | none => none
  | some (.find r) => some (find s t r)
  | some (.swap r old) => some (swap s t r old)
  | some (.back r old found) => some (back s t r old found)

def next : Label θ ν → Option (State θ ν)
  | .alloc t n size => some (allocMemory s t n size)
  | .free t b => free s t b
  | .lock t i => lock s t i
  | .proceed t => proceed s t

def Setup.initial (C : Setup ν) : State θ ν where
  nodes n := ⟨C.first n, C.limit n⟩
  threads _ := ⟨fun _ _ => .new, fun _ => none, [], none⟩
  live := []

def system (θ : Type) [DecidableEq θ] (C : Setup ν) : System (State θ ν) (Label θ ν) where
  start s := s = C.initial
  next := next

/-- Both blocks are on one node only when they lie one behind the other. -/
def Block.Apart (b c : Block ν) : Prop :=
  b.node = c.node → b.addr + room b.size ≤ c.addr ∨ c.addr + room c.size ≤ b.addr

/-- Live allocations have their bytes, do not overlap, and lie in chunks handed out. -/
structure Sound (C : Setup ν) (s : State θ ν) : Prop where
  size_le : ∀ b ∈ s.live, b.size ≤ room b.size
  apart : s.live.Pairwise Block.Apart
  not_super : ∀ b ∈ s.live, kChunkSize ≤ b.addr
  handed_out : ∀ b ∈ s.live, C.first b.node * kChunkSize ≤ b.addr ∧
    b.addr + room b.size ≤ (s.nodes b.node).allocChunk * kChunkSize
  allocChunk_le : ∀ b ∈ s.live, (s.nodes b.node).allocChunk ≤ C.limit b.node

def Moderate (C : Setup ν) (_ : State θ ν) : Label θ ν → Prop
  | .alloc _ n size => Fits C ⟨n, size⟩
  | _ => True

end Fusa.Smart.Alloc

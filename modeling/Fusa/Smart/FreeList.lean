import Fusa.Lib.Bump
import Fusa.Lib.Queues

/-! The size classes of the remote allocator, and its free lists as queues. -/
namespace Fusa.Smart
open Cover List Function Transition Option Nat

def kChunkSize : ℕ := 16384

def kNumFreeLists : ℕ := 12

def kPowerOfTwo (id : ℕ) : ℕ := 8 * 2 ^ id

/-- The constructor's inner loop: sizes from `size_idx` up to the block size get class `id`. -/
def fillClass (st : ℕ × (ℕ → ℕ)) (id : ℕ) : ℕ × (ℕ → ℕ) :=
  (max st.1 (kPowerOfTwo id + 1),
    fun size => if st.1 ≤ size ∧ size ≤ kPowerOfTwo id then id else st.2 size)

def kSizeToClass : ℕ → ℕ := ((List.range kNumFreeLists).foldl fillClass (0, fun _ => 0)).2

variable {size : ℕ}

theorem fillClass_fits (n : ℕ) (h : size < ((List.range n).foldl fillClass (0, fun _ => 0)).1) :
    ((List.range n).foldl fillClass (0, fun _ => 0)).2 size < n ∧
      size ≤ kPowerOfTwo (((List.range n).foldl fillClass (0, fun _ => 0)).2 size) := by
  induction n with
  | zero => exact absurd h (not_lt_zero _)
  | succ n ih =>
    rw [range_succ, foldl_append] at h ⊢
    simp only [foldl_cons, foldl_nil, fillClass] at h ⊢
    split_ifs with hs
    · exact ⟨lt_succ_self n, hs.2⟩
    · obtain ⟨h1, h2⟩ := ih (by omega)
      exact ⟨by omega, h2⟩

theorem kSizeToClass_fits (h : size < kChunkSize) :
    kSizeToClass size < kNumFreeLists ∧ size ≤ kPowerOfTwo (kSizeToClass size) :=
  fillClass_fits kNumFreeLists (h.trans (by decide))

theorem kPowerOfTwo_pos (id : ℕ) : 0 < kPowerOfTwo id :=
  Nat.mul_pos (by decide) (Nat.two_pow_pos id)

theorem kPowerOfTwo_succ (id : ℕ) : kPowerOfTwo (id + 1) = kPowerOfTwo id + kPowerOfTwo id := by
  unfold kPowerOfTwo
  rw [pow_succ]
  omega

/-- The ring of addresses behind a size class. -/
structure FreeList where
  entries : ℕ → ℕ
  head : ℕ
  tail : ℕ
  capacity : ℕ
  head_lt : head < capacity
  tail_lt : tail < capacity

namespace FreeList

def new : FreeList := ⟨fun _ => 0, 0, 0, 32, by decide, by decide⟩

variable (l : FreeList)

def empty : Bool := l.head = l.tail

/-- The array is copied as it is; `head_` and `tail_` stay where they are. -/
def resize : FreeList where
  __ := l
  capacity := l.capacity * 2
  head_lt := by have := l.head_lt; omega
  tail_lt := by have := l.tail_lt; omega

/-- The slot for `next_head` is found before the array may grow. -/
def enqueue (offset : ℕ) : FreeList :=
  if l.tail = Ring.after l.capacity l.head then
    { l.resize with
      entries := update l.entries l.head offset
      head := Ring.after l.capacity l.head
      head_lt := (Ring.after_lt l.head_lt).trans_le (by simp only [resize]; omega) }
  else
    { l with
      entries := update l.entries l.head offset
      head := Ring.after l.capacity l.head
      head_lt := Ring.after_lt l.head_lt }

def dequeue : FreeList × ℕ :=
  ({ l with tail := Ring.after l.capacity l.tail, tail_lt := Ring.after_lt l.tail_lt },
    l.entries l.tail)

def contents : List ℕ := Ring.between l.entries l.capacity l.tail l.head

theorem contents_new : new.contents = [] := rfl

theorem contents_enqueue (offset : ℕ) : (l.enqueue offset).contents =
      if l.tail = Ring.after l.capacity l.head then [] else l.contents ++ [offset] := by
  have hlt := l.tail_lt
  unfold enqueue contents
  split_ifs with h
  · exact (Ring.between_eq_nil (by simp only [resize]; omega) (by simp only [resize]; omega)).mpr
      h.symm
  · exact Ring.between_snoc l.tail_lt l.head_lt (Ne.symm h) offset

theorem contents_dequeue {l : FreeList} (h : l.empty = false) :
    l.contents = l.dequeue.2 :: l.dequeue.1.contents := by
  simp only [empty, decide_eq_false_iff_not] at h
  exact Ring.between_cons l.tail_lt l.head_lt h

end FreeList

/-- The free lists of one thread for one memory node. -/
abbrev FreeListArray := ℕ → FreeList

namespace FreeListArray

def enqueue (sz : FreeListArray) (id offset : ℕ) : FreeListArray :=
  update sz id ((sz id).enqueue offset)

def dequeue (sz : FreeListArray) (id : ℕ) : FreeListArray × ℕ :=
  (update sz id (sz id).dequeue.1, (sz id).dequeue.2)

def cover (sz : FreeListArray) (x : ℕ) : ℕ :=
  ∑ id ∈ Finset.range kNumFreeLists, hits (kPowerOfTwo id) (sz id).contents x

variable {sz sz' : FreeListArray} {id offset k : ℕ}

theorem cover_update (sz : FreeListArray) (hid : id < kNumFreeLists) (l : FreeList) (x : ℕ) :
    cover (update sz id l) x + hits (kPowerOfTwo id) (sz id).contents x =
      cover sz x + hits (kPowerOfTwo id) l.contents x := by
  exact sum_update (Finset.range kNumFreeLists)
    (fun j (l : FreeList) => hits (kPowerOfTwo j) l.contents x) sz (Finset.mem_range.mpr hid) l

theorem cover_enqueue_le (sz : FreeListArray) (hid : id < kNumFreeLists) (offset x : ℕ) :
    (sz.enqueue id offset).cover x ≤ sz.cover x + hit offset (kPowerOfTwo id) x := by
  have h := cover_update sz hid ((sz id).enqueue offset) x
  rw [FreeList.contents_enqueue] at h
  unfold enqueue
  split_ifs at h
  · rw [hits_nil] at h
    omega
  · rw [hits_concat] at h
    omega

theorem cover_dequeue (hid : id < kNumFreeLists) (h : (sz id).empty = false) (x : ℕ) :
    (sz.dequeue id).1.cover x + hit (sz.dequeue id).2 (kPowerOfTwo id) x = sz.cover x := by
  have hc := cover_update sz hid (sz id).dequeue.1 x
  rw [FreeList.contents_dequeue h, hits_cons] at hc
  simp only [dequeue]
  omega

end FreeListArray

def classBelow (k : ℕ) : ℕ := kNumFreeLists - 1 - k

theorem kPowerOfTwo_classBelow (h : k + 1 < kNumFreeLists) : kPowerOfTwo (classBelow k) =
      kPowerOfTwo (classBelow (k + 1)) + kPowerOfTwo (classBelow (k + 1)) := by
  have : classBelow k = classBelow (k + 1) + 1 := by
    unfold classBelow
    omega
  rw [this, kPowerOfTwo_succ]

/-- The recursion on `sz_id` from the top down; `none` when it asks for a chunk. -/
def doAllocMemory (sz : FreeListArray) : ℕ → Option (FreeListArray × ℕ)
  | 0 =>
    if (sz (classBelow 0)).empty then none else some (sz.dequeue (classBelow 0))
  | k + 1 =>
    if (sz (classBelow (k + 1))).empty then do
      let (sz', offset) ← doAllocMemory sz k
      some (sz'.enqueue (classBelow (k + 1)) (offset + kPowerOfTwo (classBelow (k + 1))), offset)
    else some (sz.dequeue (classBelow (k + 1)))

/-- The way back once the chunk is there; it is one block of the top class. -/
def splitChunk (sz : FreeListArray) (offset : ℕ) : ℕ → FreeListArray
  | 0 => sz
  | k + 1 =>
    (splitChunk sz offset k).enqueue (classBelow (k + 1))
      (offset + kPowerOfTwo (classBelow (k + 1)))

def levelOf (size : ℕ) : ℕ := kNumFreeLists - 1 - kSizeToClass size

variable (l : FreeList) (sz : FreeListArray)

/-- The part of `alloc_memory` for sizes below a chunk. -/
def allocSmall (size : ℕ) : Option (FreeListArray × ℕ) :=
  if (sz (kSizeToClass size)).empty then doAllocMemory sz (levelOf size)
  else some (sz.dequeue (kSizeToClass size))

def chunksOf (size : ℕ) : ℕ := (size + kChunkSize - 1) / kChunkSize

def freeMemory (addr size : ℕ) : FreeListArray :=
  if kChunkSize ≤ size then
    (List.range (chunksOf size)).foldl
      (fun sz i => sz.enqueue (kNumFreeLists - 1) (addr + i * kChunkSize)) sz
  else sz.enqueue (kSizeToClass size) addr

def room (size : ℕ) : ℕ :=
  if kChunkSize ≤ size then chunksOf size * kChunkSize else kPowerOfTwo (kSizeToClass size)

theorem le_room (size : ℕ) : size ≤ room size := by
  unfold room
  split_ifs with h
  · unfold chunksOf kChunkSize
    omega
  · exact (kSizeToClass_fits (Nat.lt_of_not_le h)).2

theorem room_pos (size : ℕ) : 0 < room size := by
  unfold room
  split_ifs with h
  · unfold chunksOf
    unfold kChunkSize at h ⊢
    omega
  · exact kPowerOfTwo_pos _

theorem classBelow_levelOf (h : size < kChunkSize) :
    classBelow (levelOf size) = kSizeToClass size := by
  have := (kSizeToClass_fits h).1
  unfold classBelow levelOf
  omega

variable {sz sz' : FreeListArray} {offset k : ℕ}

theorem classBelow_lt (k : ℕ) : classBelow k < kNumFreeLists := by
  unfold classBelow kNumFreeLists
  omega

theorem doAllocMemory_cover (hk : k < kNumFreeLists) (h : doAllocMemory sz k = some (sz', offset))
    (x : ℕ) : sz'.cover x + hit offset (kPowerOfTwo (classBelow k)) x ≤ sz.cover x := by
  induction k generalizing sz' with
  | zero =>
    unfold doAllocMemory at h
    split_ifs at h with he
    obtain ⟨rfl, rfl⟩ := Prod.mk.inj (some.inj h)
    exact (FreeListArray.cover_dequeue (classBelow_lt 0) (by simpa using he) x).le
  | succ k ih =>
    unfold doAllocMemory at h
    split_ifs at h with he
    · obtain ⟨⟨sz₁, offset₁⟩, h₁, h₂⟩ := bind_eq_some_iff.mp h
      obtain ⟨rfl, rfl⟩ := Prod.mk.inj (some.inj h₂)
      have hup := ih (by omega) h₁
      have hen := FreeListArray.cover_enqueue_le sz₁ (classBelow_lt (k + 1))
        (offset₁ + kPowerOfTwo (classBelow (k + 1))) x
      rw [kPowerOfTwo_classBelow hk, hit_add] at hup
      omega
    · obtain ⟨rfl, rfl⟩ := Prod.mk.inj (some.inj h)
      exact (FreeListArray.cover_dequeue (classBelow_lt _) (by simpa using he) x).le

theorem splitChunk_cover (hk : k < kNumFreeLists) (x : ℕ) :
    (splitChunk sz offset k).cover x + hit offset (kPowerOfTwo (classBelow k)) x ≤
      sz.cover x + hit offset kChunkSize x := by
  induction k with
  | zero => exact le_refl _
  | succ k ih =>
    have hup := ih (by omega)
    have hen := FreeListArray.cover_enqueue_le (splitChunk sz offset k)
      (classBelow_lt (k + 1)) (offset + kPowerOfTwo (classBelow (k + 1))) x
    rw [kPowerOfTwo_classBelow hk, hit_add] at hup
    unfold splitChunk
    omega

theorem room_of_lt (h : size < kChunkSize) :
    room size = kPowerOfTwo (classBelow (levelOf size)) := by
  rw [classBelow_levelOf h, room, if_neg (not_le.mpr h)]

theorem levelOf_lt (size : ℕ) : levelOf size < kNumFreeLists := by
  unfold levelOf kNumFreeLists
  omega

theorem allocSmall_cover (hs : size < kChunkSize) (h : allocSmall sz size = some (sz', offset))
    (x : ℕ) : sz'.cover x + hit offset (room size) x ≤ sz.cover x := by
  rw [room_of_lt hs]
  unfold allocSmall at h
  split_ifs at h with he
  · exact doAllocMemory_cover (levelOf_lt size) h x
  · cases h
    rw [classBelow_levelOf hs]
    exact (FreeListArray.cover_dequeue (kSizeToClass_fits hs).1 (by simpa using he) x).le

theorem foldl_enqueue_cover (sz : FreeListArray) (addr k x : ℕ) :
    FreeListArray.cover ((List.range k).foldl
      (fun sz i => sz.enqueue (kNumFreeLists - 1) (addr + i * kChunkSize)) sz) x ≤
      sz.cover x + hit addr (k * kChunkSize) x := by
  induction k with
  | zero => exact le_add_right _ _
  | succ k ih =>
    rw [range_succ, foldl_append, hit_mul_succ]
    have hen := FreeListArray.cover_enqueue_le ((List.range k).foldl
      (fun sz i => sz.enqueue (kNumFreeLists - 1) (addr + i * kChunkSize)) sz)
      (by decide : kNumFreeLists - 1 < kNumFreeLists) (addr + k * kChunkSize) x
    exact hen.trans (by rw [← Nat.add_assoc]; exact Nat.add_le_add_right ih _)

theorem freeMemory_cover (sz : FreeListArray) (addr size x : ℕ) :
    (freeMemory sz addr size).cover x ≤ sz.cover x + hit addr (room size) x := by
  unfold freeMemory room
  split_ifs with h
  · exact foldl_enqueue_cover sz addr _ x
  · exact FreeListArray.cover_enqueue_le sz (kSizeToClass_fits (Nat.lt_of_not_le h)).1 addr x

namespace FreeList

theorem empty_iff : l.empty = true ↔ l.contents = [] := by
  unfold empty contents
  rw [decide_eq_true_iff, Ring.between_eq_nil l.tail_lt l.head_lt]

theorem length_contents_lt : l.contents.length < l.capacity := by
  have := l.head_lt
  rw [contents, Ring.length_between]
  exact Cyclic.dist_lt (by omega)

theorem full_iff : l.tail = Ring.after l.capacity l.head ↔ l.contents.length + 1 = l.capacity := by
  rw [eq_comm, Ring.after_eq_iff l.tail_lt l.head_lt, contents, Ring.length_between]

theorem capacity_enqueue {l : FreeList} (h : l.contents.length + 1 ≠ l.capacity) (offset : ℕ) :
    (l.enqueue offset).capacity = l.capacity := by
  rw [Ne, ← full_iff] at h
  rw [enqueue, if_neg h]

inductive Op
  | enqueue (offset : ℕ)
  | dequeue

structure Use where
  list : FreeList
  enqueued : List ℕ
  dequeued : List ℕ

namespace Use

def new : Use := ⟨FreeList.new, [], []⟩

def held (u : Use) : ℕ := u.enqueued.length - u.dequeued.length

/-- `dequeue` asserts that the list is not empty. -/
def next (u : Use) : Op → Option Use
  | .enqueue offset =>
    some { u with list := u.list.enqueue offset, enqueued := u.enqueued ++ [offset] }
  | .dequeue =>
    if u.list.empty then none
    else some { u with list := u.list.dequeue.1, dequeued := u.dequeued ++ [u.list.dequeue.2] }

def system : System Use Op := ⟨(· = new), next⟩

/-- First in, first out, and empty when all is taken out. -/
def Fifo (u : Use) : Prop :=
  u.dequeued <+: u.enqueued ∧ (u.list.empty = true ↔ u.dequeued = u.enqueued)

/-- The list holds what was put in and not taken out, in an array that has not grown. -/
def Holds (u : Use) : Prop := u.enqueued = u.dequeued ++ u.list.contents ∧ u.list.capacity = 32

/-- An `enqueue` finds fewer values than the first array has slots, with one to spare. -/
def HasRoom (u : Use) : Op → Prop
  | .enqueue _ => u.held < 31
  | .dequeue => True

instance HasRoom.decidable (u : Use) (op : Op) : Decidable (HasRoom u op) := by
  cases op <;> unfold HasRoom <;> infer_instance

variable {u v : Use}

theorem Holds.fifo (h : u.Holds) : u.Fifo := by
  refine ⟨⟨_, h.1.symm⟩, ?_⟩
  rw [empty_iff, h.1]
  simp

theorem Holds.held_eq (h : u.Holds) : u.held = u.list.contents.length := by
  simp [held, h.1]

theorem Holds.next {op : Op} (h : u.Holds) (hroom : u.HasRoom op) (hn : u.next op = some v) :
    v.Holds := by
  cases op with
  | enqueue offset =>
    cases hn
    have hlen : u.list.contents.length + 1 ≠ u.list.capacity := by
      have hlt : u.held < 31 := hroom
      rw [h.held_eq] at hlt
      rw [h.2]
      omega
    refine ⟨?_, (capacity_enqueue hlen offset).trans h.2⟩
    rw [Ne, ← full_iff] at hlen
    simp only [h.1, contents_enqueue, if_neg hlen, List.append_assoc]
  | dequeue =>
    simp only [Use.next] at hn
    split_ifs at hn with he
    cases hn
    refine ⟨?_, h.2⟩
    rw [h.1, contents_dequeue (by simpa using he)]
    simp

theorem Holds.hasRoom {op : Op} (h : u.Holds) (hf : ∀ v, u.next op = some v → v.Fifo) :
    u.HasRoom op := by
  cases op with
  | dequeue => trivial
  | enqueue offset =>
    by_contra hroom
    have hfull : u.list.tail = Ring.after u.list.capacity u.list.head := by
      have hlt := u.list.length_contents_lt
      have hge : ¬ u.held < 31 := hroom
      rw [h.held_eq] at hge
      rw [h.2] at hlt
      rw [full_iff, h.2]
      omega
    have hempty : (u.list.enqueue offset).empty = true := by
      rw [empty_iff, contents_enqueue, if_pos hfull]
    have heq : u.dequeued = u.enqueued ++ [offset] := (hf _ rfl).2.mp hempty
    have hlen := congrArg List.length heq
    rw [h.1] at hlen
    simp at hlen

/-- The free list is a queue exactly when no value is put in while 31 are held. -/
theorem along_fifo_iff (ops : List Op) :
    system.Along Fifo new ops ↔ system.AllSteps HasRoom new ops :=
  System.along_iff_allSteps (I := Holds) (fun _ h => h.fifo) (fun _ _ _ h hc hn => h.next hc hn)
    (fun _ _ h hf => h.hasRoom hf) ⟨rfl, rfl⟩ ops

/-- 32 values are put in, and the list says that it is empty. -/
theorem not_fifo_thirtyTwo :
    ∃ u, system.exec new ((List.range 32).map .enqueue) = some u ∧ u.list.empty = true ∧
      u.dequeued = [] ∧ u.enqueued = List.range 32 ∧ ¬ u.Fifo := by
  have hrun : (system.exec new ((List.range 32).map .enqueue)).map
      (fun u => (u.list.empty, u.dequeued, u.enqueued)) = some (true, [], List.range 32) := by
    decide +kernel
  obtain ⟨u, hu, hv⟩ := map_eq_some_iff.mp hrun
  simp only [Prod.mk.injEq] at hv
  obtain ⟨he, hd, hq⟩ := hv
  refine ⟨u, hu, he, hd, hq, fun hf => ?_⟩
  have := hf.2.mp he
  rw [hd, hq] at this
  exact absurd this (by decide)

end Use
end FreeList
end Fusa.Smart

import Fusa.Smart.Alloc

/-! No address of a memory node is in two blocks, whether live, free or on the way. -/
namespace Fusa.Smart.Alloc
open Cover Transition Function List Option Nat
variable {θ ν : Type} {C : Setup ν} {s : State θ ν}

def Setup.bound (C : Setup ν) (n : ν) : ℕ := max 1 (C.limit n)

/-- The test before the compare-and-swap was about the value it expects. -/
def Progress.Ok (C : Setup ν) : Progress ν → Prop
  | .find r => Fits C r
  | .swap r old => Fits C r ∧ r.Small ∧ old + r.chunks ≤ C.limit r.node
  | .back r old found =>
    Fits C r ∧ old + r.chunks ≤ C.limit r.node ∧ found ≤ C.bound r.node

def SuperChunk.Ok (C : Setup ν) (n : ν) (e : SuperChunk) : Prop :=
  e.maxChunk = C.limit n ∧ e.allocChunk ≤ C.bound n

structure Thread.Ok (C : Setup ν) (th : Thread ν) : Prop where
  waiting : ∀ r ∈ th.waiting, Fits C r
  holder : ∀ p ∈ th.holder, p.Ok C
  cached : ∀ n, ∀ e ∈ th.superChunk n, e.Ok C n

variable {found chunk : ℕ} {t : θ} {r : Request ν} {b : Block ν}

namespace Thread.Ok
variable {th : Thread ν}

theorem setHolder (h : th.Ok C) {p : Progress ν} (hp : p.Ok C) : (th.setHolder (some p)).Ok C :=
  ⟨h.waiting, fun _ hq => Option.some.inj hq ▸ hp, h.cached⟩

theorem release (h : th.Ok C) : (th.setHolder none).Ok C :=
  ⟨h.waiting, fun _ hq => absurd hq (not_mem_none _), h.cached⟩

variable [DecidableEq ν]

theorem setLists (h : th.Ok C) (n : ν) (sz : FreeListArray) : (th.setLists n sz).Ok C :=
  ⟨h.waiting, h.holder, h.cached⟩

theorem cache (h : th.Ok C) {n : ν} {e : Option SuperChunk} (he : ∀ e' ∈ e, e'.Ok C n) :
    (th.cache n e).Ok C := by
  refine ⟨h.waiting, h.holder, fun m e' hm => ?_⟩
  simp only [Thread.cache] at hm
  rcases eq_or_ne m n with rfl | hne
  · rw [update_self] at hm
    exact he e' hm
  · rw [update_of_ne hne] at hm
    exact h.cached m e' hm

theorem learn (h : th.Ok C) {n : ν} (hf : found ≤ C.bound n) : (th.learn n found).Ok C := by
  refine h.cache fun e he => ?_
  obtain ⟨e', he', rfl⟩ := map_eq_some_iff.mp he
  exact ⟨(h.cached n e' he').1, hf⟩

end Thread.Ok

theorem ok_update [DecidableEq θ] {threads : θ → Thread ν} (h : ∀ t, (threads t).Ok C)
    {th : Thread ν} (hth : th.Ok C) (u : θ) : (update threads t th u).Ok C := by
  rcases eq_or_ne u t with rfl | hu
  · rwa [update_self]
  · rw [update_of_ne hu]
    exact h u

def taken (C : Setup ν) (n : ν) (k x : ℕ) : ℕ :=
  hit (C.first n * kChunkSize) ((k - C.first n) * kChunkSize) x

theorem taken_add {n : ν} {k : ℕ} (h : C.first n ≤ k) (c x : ℕ) :
    taken C n (k + c) x = taken C n k x + hit (k * kChunkSize) (c * kChunkSize) x := by
  have h1 : (k + c - C.first n) * kChunkSize = (k - C.first n) * kChunkSize + c * kChunkSize := by
    rw [← Nat.add_mul, Nat.sub_add_comm h]
  have h2 : C.first n * kChunkSize + (k - C.first n) * kChunkSize = k * kChunkSize := by
    rw [← Nat.add_mul, Nat.add_sub_cancel' h]
  unfold taken
  rw [h1, hit_add, h2]

theorem chunkAddr_eq (h : chunk < 2 ^ 34) : chunkAddr chunk = chunk * kChunkSize := by
  unfold chunkAddr kChunkSize
  omega

theorem listsWith_cover (th : Thread ν) (r : Request ν) (addr x : ℕ) :
    (th.listsWith r addr).cover x + hit addr (room r.size) x ≤
      (th.freeList r.node).cover x + hit addr (r.chunks * kChunkSize) x := by
  unfold Thread.listsWith Request.chunks
  split_ifs with hs
  · rw [room, if_pos hs]
  · rw [room_of_lt (Nat.lt_of_not_le hs), Nat.one_mul]
    exact splitChunk_cover (levelOf_lt _) x

variable [DecidableEq ν]

/-- A chunk that is taken at the node and on its way to the thread. -/
def Progress.cover (n : ν) (x : ℕ) : Progress ν → ℕ
  | .back r old found =>
    if found = old ∧ r.node = n then hit (old * kChunkSize) (r.chunks * kChunkSize) x else 0
  | _ => 0

def Thread.cover (n : ν) (x : ℕ) (th : Thread ν) : ℕ :=
  (th.freeList n).cover x + th.holder.elim 0 (·.cover n x)

def Block.cover (n : ν) (x : ℕ) (b : Block ν) : ℕ :=
  if b.node = n then hit b.addr (room b.size) x else 0

/-- How many live, free or incoming blocks contain the address `x` of node `n`. -/
def State.cover [Fintype θ] (s : State θ ν) (n : ν) (x : ℕ) : ℕ :=
  (s.live.map (Block.cover n x)).sum + ∑ t, (s.threads t).cover n x

section Thread
variable (th : Thread ν) (n : ν) (x : ℕ)

theorem cover_setLists (m : ν) (sz : FreeListArray) :
    (th.setLists m sz).cover n x + (if m = n then (th.freeList m).cover x else 0) =
      th.cover n x + if m = n then sz.cover x else 0 := by
  simp only [Thread.cover, Thread.setLists]
  split_ifs with h
  · subst h
    rw [update_self]
    omega
  · rw [update_of_ne (Ne.symm h)]

theorem cover_setHolder (p : Option (Progress ν)) :
    (th.setHolder p).cover n x + th.holder.elim 0 (·.cover n x) =
      th.cover n x + p.elim 0 (·.cover n x) := by
  simp only [Thread.cover, Thread.setHolder]
  omega

theorem cover_setHolder_eq {p : Option (Progress ν)}
    (h : th.holder.elim 0 (·.cover n x) = p.elim 0 (·.cover n x)) :
    (th.setHolder p).cover n x = th.cover n x := by
  have := cover_setHolder th n x p
  omega

theorem cover_learn (m : ν) (found : ℕ) : (th.learn m found).cover n x = th.cover n x := rfl

variable {th}

theorem cover_finish (hh : th.holder = some (.back r chunk chunk)) :
    Block.cover n x ⟨r.node, chunk * kChunkSize, r.size⟩ +
      ((th.setLists r.node (th.listsWith r (chunk * kChunkSize))).setHolder none).cover n x ≤
      th.cover n x := by
  have h1 := listsWith_cover th r (chunk * kChunkSize) x
  have h2 := cover_setLists th n x r.node (th.listsWith r (chunk * kChunkSize))
  have h3 := cover_setHolder (th.setLists r.node (th.listsWith r (chunk * kChunkSize))) n x none
  have h4 : (th.setLists r.node (th.listsWith r (chunk * kChunkSize))).holder =
    some (.back r chunk chunk) := hh
  simp only [h4, elim_some, elim_none, Progress.cover, true_and] at h3
  simp only [Block.cover]
  split_ifs at h2 h3 ⊢ <;> omega

end Thread

section Nodes
variable [DecidableEq θ] {old : ℕ}

theorem maxChunk_swap (n : ν) : ((swap s t r old).nodes n).maxChunk = (s.nodes n).maxChunk := by
  simp only [swap]
  rcases eq_or_ne n r.node with rfl | hne
  · rw [update_self]
  · rw [update_of_ne hne]

theorem allocChunk_swap (hr : r.Small) (hfit : C.limit r.node ≤ 2 ^ 34)
    (hold : old + r.chunks ≤ C.limit r.node) (n : ν) : ((swap s t r old).nodes n).allocChunk =
      if (s.nodes r.node).allocChunk = old ∧ r.node = n then old + r.chunks
      else (s.nodes n).allocChunk := by
  have hmod : (old + r.count) % 2 ^ 64 = old + r.chunks := by
    rw [hr.count]
    omega
  simp only [swap, hmod]
  rcases eq_or_ne n r.node with rfl | hne
  · simp only [update_self, and_true]
  · rw [update_of_ne hne, if_neg fun h => hne h.2.symm]

end Nodes

variable [Fintype θ]

structure Inv (C : Setup ν) (s : State θ ν) : Prop where
  limit : ∀ n, (s.nodes n).maxChunk = C.limit n
  first_le : ∀ n, C.first n ≤ (s.nodes n).allocChunk
  le_bound : ∀ n, (s.nodes n).allocChunk ≤ C.bound n
  cover_le : ∀ n x, s.cover n x ≤ taken C n (s.nodes n).allocChunk x
  threads : ∀ t, (s.threads t).Ok C

theorem inv_initial : Inv C (C.initial : State θ ν) where
  limit _ := rfl
  first_le _ := le_refl _
  le_bound := C.first_le
  cover_le n x := by
    have hsz : FreeListArray.cover (fun _ => .new) x = 0 :=
      Finset.sum_eq_zero fun id _ => by rw [FreeList.contents_new, hits_nil]
    simp [State.cover, Setup.initial, Thread.cover, hsz]
  threads _ := ⟨by simp [Setup.initial], by simp [Setup.initial], by simp [Setup.initial]⟩

theorem Inv.live_le (h : Inv C s) (n : ν) (x : ℕ) :
    (s.live.map (Block.cover n x)).sum ≤ taken C n (s.nodes n).allocChunk x :=
  (le_add_right _ _).trans (h.cover_le n x)

theorem Inv.apart (h : Inv C s) : s.live.Pairwise Block.Apart := by
  have hp := pairwise_of_sum_le (f := fun b (p : ν × ℕ) => Block.cover p.1 p.2 b)
    (fun p => (h.live_le p.1 p.2).trans hit_le_one)
  refine hp.imp fun {b c} hbc hnode => ?_
  refine apart_of_hit (room_pos _) (room_pos _) fun x => ?_
  have hx := hbc (c.node, x)
  rwa [Block.cover, Block.cover, if_pos hnode, if_pos rfl] at hx

theorem Inv.handed_out (h : Inv C s) (hb : b ∈ s.live) : C.first b.node * kChunkSize ≤ b.addr ∧
      b.addr + room b.size ≤ (s.nodes b.node).allocChunk * kChunkSize := by
  have hle : ∀ x, hit b.addr (room b.size) x ≤ taken C b.node (s.nodes b.node).allocChunk x := by
    intro x
    have hx := (le_sum_of_mem (f := Block.cover b.node x) hb).trans (h.live_le b.node x)
    rwa [Block.cover, if_pos rfl] at hx
  have hin := inside_of_hit (room_pos b.size) hle
  rwa [← Nat.add_mul, Nat.add_sub_cancel' (h.first_le b.node)] at hin

theorem Inv.sound (h : Inv C s) : Sound C s where
  size_le b _ := le_room b.size
  apart := h.apart
  not_super b hb := by
    have h1 := mul_le_mul_right kChunkSize (C.one_le_first b.node)
    have h2 := (h.handed_out hb).1
    omega
  handed_out b hb := h.handed_out hb
  allocChunk_le b hb := by
    -- a block is not empty, so the node has handed out a chunk and the test allowed it
    obtain ⟨h1, h2⟩ := h.handed_out hb
    have h3 := room_pos b.size
    have hlt : C.first b.node < (s.nodes b.node).allocChunk :=
      Nat.lt_of_mul_lt_mul_right (by omega : C.first b.node * kChunkSize < _ * kChunkSize)
    have h4 := C.one_le_first b.node
    have h5 := h.le_bound b.node
    unfold Setup.bound at h5
    omega

variable [DecidableEq θ]

theorem cover_set (s : State θ ν) (t : θ) (th : Thread ν) (live : List (Block ν)) (n : ν) (x : ℕ) :
    (s.set t th live).cover n x + ((s.live.map (Block.cover n x)).sum + (s.threads t).cover n x) =
      s.cover n x + ((live.map (Block.cover n x)).sum + th.cover n x) := by
  have h := sum_update Finset.univ (fun _ th => Thread.cover n x th) s.threads
    (Finset.mem_univ t) th
  simp only [State.cover, State.set]
  omega

namespace Inv

theorem set (h : Inv C s) {th : Thread ν} {live : List (Block ν)} (hth : th.Ok C)
    (hc : ∀ n x, (live.map (Block.cover n x)).sum + th.cover n x ≤
      (s.live.map (Block.cover n x)).sum + (s.threads t).cover n x) : Inv C (s.set t th live) where
  limit := h.limit
  first_le := h.first_le
  le_bound := h.le_bound
  cover_le n x := by
    have h1 := cover_set s t th live n x
    have h2 := h.cover_le n x
    have h3 := hc n x
    change (s.set t th live).cover n x ≤ taken C n (s.nodes n).allocChunk x
    omega
  threads := ok_update h.threads hth

theorem set_same (h : Inv C s) {th : Thread ν} (hth : th.Ok C)
    (hc : ∀ n x, th.cover n x = (s.threads t).cover n x) : Inv C (s.set t th s.live) :=
  h.set hth fun n x => Nat.add_le_add_left (hc n x).le _

theorem wait (h : Inv C s) (t : θ) (hr : Fits C r) :
    Inv C (s.set t ((s.threads t).wait r) s.live) :=
  h.set_same ⟨forall_mem_cons.mpr ⟨hr, (h.threads t).waiting⟩, (h.threads t).holder,
    (h.threads t).cached⟩ fun _ _ => rfl

theorem allocMemory (h : Inv C s) (t : θ) {n : ν} {size : ℕ} (hr : Fits C ⟨n, size⟩) :
    Inv C (allocMemory s t n size) := by
  unfold Alloc.allocMemory
  split_ifs with hs
  · exact h.wait t hr
  · cases ha : allocSmall ((s.threads t).freeList n) size with
    | none => exact h.wait t hr
    | some out =>
      refine h.set ((h.threads t).setLists n out.1) fun m x => ?_
      have h1 := allocSmall_cover (Nat.lt_of_not_le hs) ha x
      have h2 := cover_setLists (s.threads t) m x n out.1
      simp only [map_cons, sum_cons, Block.cover]
      split_ifs at h2 ⊢ <;> omega

variable {s' : State θ ν} {old : ℕ}

section
variable (h : Inv C s)
include h

theorem free (hn : free s t b = some s') : Inv C s' := by
  unfold Alloc.free at hn
  split_ifs at hn with hb
  cases hn
  refine h.set ((h.threads t).setLists _ _) fun m x => ?_
  have h1 := freeMemory_cover ((s.threads t).freeList b.node) b.addr b.size x
  have h2 := cover_setLists (s.threads t) m x b.node
    (freeMemory ((s.threads t).freeList b.node) b.addr b.size)
  have h3 : (s.live.map (Block.cover m x)).sum =
      Block.cover m x b + ((s.live.erase b).map (Block.cover m x)).sum := by
    rw [← sum_cons, ← map_cons]
    exact ((perm_cons_erase hb).map _).sum_eq
  rw [h3, Block.cover]
  split_ifs at h2 ⊢ <;> omega

theorem lock {i : ℕ} (hn : lock s t i = some s') : Inv C s' := by
  unfold Alloc.lock at hn
  cases hh : (s.threads t).holder with
  | some p => simp [hh] at hn
  | none =>
    cases hw : (s.threads t).waiting[i]? with
    | none => simp [hh, hw] at hn
    | some r =>
      simp only [hh, hw] at hn
      cases hn
      have hr : Progress.Ok C (.find r) := (h.threads t).waiting r (mem_of_getElem? hw)
      have hok := (h.threads t).setHolder hr
      refine h.set_same ⟨fun q hq => hok.waiting q (mem_of_mem_eraseIdx hq), hok.holder,
        hok.cached⟩ fun n x => ?_
      exact cover_setHolder_eq (s.threads t) n x (hh ▸ rfl)

theorem find (hh : (s.threads t).holder = some (.find r)) : Inv C (find s t r) := by
  have hok := h.threads t
  have hr : Fits C r := hok.holder _ hh
  unfold Alloc.find
  cases hc : (s.threads t).superChunk r.node with
  | none =>
    refine h.set_same (hok.cache ?_) fun _ _ => rfl
    rintro e ⟨⟩
    exact ⟨h.limit _, h.le_bound _⟩
  | some e =>
    obtain ⟨hmax, halloc⟩ := hok.cached _ _ hc
    have hfit := hr.2
    simp only
    split_ifs with hle
    · have hsmall := hr.1.resolve_right fun hlt => absurd (hlt _ halloc) (by omega)
      have hcount := hsmall.count
      have hchunks := hsmall.chunks_lt
      unfold Setup.bound at halloc
      refine h.set_same (hok.setHolder ⟨hr, hsmall, ?_⟩) fun n x =>
        cover_setHolder_eq _ n x (hh ▸ rfl)
      -- the sum does not wrap, so the test was about the real number of chunks
      omega
    · exact h.set_same hok.release fun n x => cover_setHolder_eq _ n x (hh ▸ rfl)

/-- The compare-and-swap takes the chunks right behind those taken so far. -/
theorem swap (hh : (s.threads t).holder = some (.swap r old)) : Inv C (swap s t r old) := by
  have hok := h.threads t
  obtain ⟨hr, hsmall, hold⟩ : Fits C r ∧ r.Small ∧ old + r.chunks ≤ C.limit r.node :=
    hok.holder _ hh
  have halloc := allocChunk_swap (s := s) (t := t) hsmall hr.2 hold
  refine ⟨fun n => (maxChunk_swap n).trans (h.limit n), fun n => ?_, fun n => ?_,
    fun n x => ?_, ok_update h.threads (hok.setHolder ⟨hr, hold, h.le_bound _⟩)⟩
  · have hfirst := h.first_le n
    rw [halloc]
    split_ifs with hn
    · obtain ⟨hfound, rfl⟩ := hn
      omega
    · exact hfirst
  · rw [halloc]
    split_ifs with hn
    · rw [← hn.2]
      exact hold.trans (le_max_right _ _)
    · exact h.le_bound n
  · have h1 := cover_set s t ((s.threads t).setHolder
      (some (.back r old (s.nodes r.node).allocChunk))) s.live n x
    have h2 := cover_setHolder (s.threads t) n x
      (some (.back r old (s.nodes r.node).allocChunk))
    have h3 := h.cover_le n x
    change State.cover (s.set t _ s.live) n x ≤ _
    simp only [hh, elim_some, Progress.cover] at h2
    rw [halloc]
    split_ifs at h2 ⊢ with hn
    · obtain ⟨hfound, rfl⟩ := hn
      rw [hfound] at h3
      rw [taken_add (hfound ▸ h.first_le r.node)]
      omega
    · omega

theorem back (hh : (s.threads t).holder = some (.back r old found)) :
    Inv C (back s t r old found) := by
  have hok := h.threads t
  obtain ⟨hr, hold, hfound⟩ : Fits C r ∧ old + r.chunks ≤ C.limit r.node ∧
    found ≤ C.bound r.node := hok.holder _ hh
  have hlearn := hok.learn hfound
  have hh' : ((s.threads t).learn r.node found).holder = some (.back r old found) := hh
  unfold Alloc.back
  split_ifs with hf
  · subst hf
    have hpos := r.chunks_pos
    have hfit := hr.2
    refine h.set (hlearn.setLists _ _).release fun n x => ?_
    have h1 := cover_finish n x hh'
    rw [cover_learn] at h1
    rw [chunkAddr_eq (by omega), map_cons, sum_cons]
    omega
  · refine h.set_same (hlearn.setHolder hr) fun n x => ?_
    rw [cover_setHolder_eq, cover_learn]
    rw [hh']
    simp only [elim_some, Progress.cover, hf, false_and, if_false]

theorem next {a : Label θ ν} (ha : Moderate C s a) (hn : next s a = some s') : Inv C s' := by
  cases a with
  | alloc t n size =>
    cases hn
    exact h.allocMemory t ha
  | free t b => exact h.free hn
  | lock t i => exact h.lock hn
  | proceed t =>
    simp only [Alloc.next, proceed] at hn
    cases hh : (s.threads t).holder with
    | none => simp [hh] at hn
    | some p =>
      rw [hh] at hn
      cases p with
      | find r =>
        cases hn
        exact h.find hh
      | swap r old =>
        cases hn
        exact h.swap hh
      | back r old found =>
        cases hn
        exact h.back hh

end

end Inv

/-- Sound in every run of requests that are below `2 ^ 31` chunks or refused, with memory that
48 bits reach. -/
theorem sound_of_moderate (C : Setup ν) (s : State θ ν)
    (h : (system θ C).RunWith (Moderate C) s) : Sound C s :=
  Inv.sound <| h.invariant (P := Inv C) (by rintro _ rfl; exact inv_initial)
    fun _ _ _ hi ha hn => hi.next ha hn

def sevenChunks : Setup Unit := ⟨fun _ => 1, fun _ => 7, by decide, by decide⟩

def twoThreads : List (Label (Fin 2) Unit) :=
  [.alloc 0 () 8, .lock 0 0, .proceed 0, .proceed 0, .alloc 1 () 40000, .lock 1 0, .proceed 1,
    .proceed 1, .proceed 0, .proceed 0, .alloc 0 () 100, .proceed 1, .proceed 1, .proceed 1,
    .proceed 1, .proceed 1, .free 1 ⟨(), 16384, 8⟩, .alloc 1 () 5, .alloc 0 () (2 ^ 45), .lock 0 0,
    .proceed 0]

instance (C : Setup ν) (s : State θ ν) (a : Label θ ν) : Decidable (Moderate C s a) := by
  cases a <;> unfold Moderate <;> infer_instance

theorem sound_twoThreads : ∃ s, (system (Fin 2) sevenChunks).exec sevenChunks.initial twoThreads =
    some s ∧ s.live = [⟨(), 16384, 5⟩, ⟨(), 32768, 40000⟩, ⟨(), 16512, 100⟩] ∧
      Sound sevenChunks s := by
  obtain ⟨s, hs, hrun, hl⟩ := (system (Fin 2) sevenChunks).exists_runWith (Moderate sevenChunks)
    (·.live = [⟨(), 16384, 5⟩, ⟨(), 32768, 40000⟩, ⟨(), 16512, 100⟩]) rfl twoThreads
    (by decide +kernel) (by decide +kernel)
  exact ⟨s, hs, hl, sound_of_moderate sevenChunks s hrun⟩

/-- The second request, -1 chunks as an `int`, takes `alloc_chunk` back to the first's chunk. -/
def backwards : List (Label (Fin 1) Unit) :=
  [.alloc 0 () 8, .lock 0 0, .proceed 0, .proceed 0, .proceed 0, .proceed 0,
    .alloc 0 () (2 ^ 46 - 2 ^ 14), .lock 0 0, .proceed 0, .proceed 0, .proceed 0, .proceed 0,
    .proceed 0, .proceed 0,
    .alloc 0 () 16384, .lock 0 0, .proceed 0, .proceed 0, .proceed 0, .proceed 0, .proceed 0,
    .proceed 0]

theorem overlap_backwards : ∃ s : State (Fin 1) Unit, (system (Fin 1) sevenChunks).Reachable s ∧
    s.live = [⟨(), 16384, 16384⟩, ⟨(), 32768, 2 ^ 46 - 2 ^ 14⟩, ⟨(), 16384, 8⟩] ∧
      ¬ Sound sevenChunks s := by
  obtain ⟨s, -, hrun, hl⟩ := (system (Fin 1) sevenChunks).exists_reachable
    (·.live = [⟨(), 16384, 16384⟩, ⟨(), 32768, 2 ^ 46 - 2 ^ 14⟩, ⟨(), 16384, 8⟩]) rfl backwards
    (by decide +kernel)
  refine ⟨s, hrun, hl, fun h => ?_⟩
  have hp := h.apart
  rw [hl] at hp
  have hbc := (pairwise_cons.mp hp).1 ⟨(), 16384, 8⟩ (by decide) rfl
  revert hbc
  decide +kernel

end Fusa.Smart.Alloc

import Fusa.Smart.FreeList

/-! `Initiator::alloc_cache` and `Target::alloc_chunk`, called by any number of threads. -/
namespace Fusa.Smart
open Transition Option

def kCacheLineSize : ℕ := 64

/-- Whole cache lines for `size` bytes, in `size_t`. -/
def cacheLines (size : ℕ) : ℕ :=
  if size % kCacheLineSize = 0 then size
  else (size - size % kCacheLineSize + kCacheLineSize) % 2 ^ 64

/-- The two allocators: bytes of the cache, and chunks behind the super chunk. -/
inductive BumpAllocator
  | allocCache (cacheSize : ℕ)
  | allocChunk (maxChunk : ℕ)

/-- `alloc_cache` adds at once; `alloc_chunk` reads the counter before. -/
def BumpAllocator.params : BumpAllocator → Bump.Params
  | .allocCache cacheSize => ⟨2 ^ 64, cacheSize, 0, cacheLines, false, by decide⟩
  | .allocChunk maxChunk => ⟨2 ^ 64, maxChunk, 1, fun count => count, true, by decide⟩

def BumpAllocator.size : BumpAllocator → ℕ
  | .allocCache cacheSize => cacheSize
  | .allocChunk maxChunk => maxChunk

/-- Blocks are apart and inside if additions that fit find nothing to subtract, and none wraps. -/
theorem bump_good_of_calm (b : BumpAllocator) (n : ℕ) (s : Bump.State (Fin n))
    (h : (Bump.system (Fin n) b.params).RunWith (Bump.Calm b.params) s) : Bump.Good b.size s := by
  have hlimit : b.params.limit = b.size := by
    cases b <;> rfl
  rw [← hlimit]
  exact Bump.good_of_runWith h

def BumpAllocator.exec (b : BumpAllocator) (n : ℕ) (steps : List (Bump.Label (Fin n))) :
    Option (Bump.State (Fin n)) :=
  (Bump.system (Fin n) b.params).exec (Bump.initial b.params) steps

theorem bump_good_twoThreads :
    (∃ s, (BumpAllocator.allocCache 640).exec 2 [.add 0 100, .add 1 704, .sub 1, .add 1 64] =
        some s ∧ s.granted = [(0, 100), (128, 64)] ∧ Bump.Good 640 s) ∧
    ∃ s, (BumpAllocator.allocChunk 4).exec 2 [.load 0 2, .load 1 1, .add 0 2, .add 1 1] =
        some s ∧ s.granted = [(1, 2), (3, 1)] ∧ Bump.Good 4 s := by
  let b := BumpAllocator.allocCache 640
  let c := BumpAllocator.allocChunk 4
  obtain ⟨s, hs, h, hg⟩ := (Bump.system (Fin 2) b.params).exists_runWith (Bump.Calm b.params)
    (·.granted = [(0, 100), (128, 64)]) rfl [.add 0 100, .add 1 704, .sub 1, .add 1 64]
    (by decide +kernel) (by decide +kernel)
  obtain ⟨s', hs', h', hg'⟩ := (Bump.system (Fin 2) c.params).exists_runWith (Bump.Calm c.params)
    (·.granted = [(1, 2), (3, 1)]) rfl [.load 0 2, .load 1 1, .add 0 2, .add 1 1]
    (by decide +kernel) (by decide +kernel)
  exact ⟨⟨s, hs, hg, bump_good_of_calm b 2 s h⟩, s', hs', hg', bump_good_of_calm c 2 s' h'⟩

/-- Two failed requests meet: between their subtractions a block is handed out, and overlapped. -/
theorem bump_overlap : (∃ s, (BumpAllocator.allocCache 640).exec 3
        [.add 0 704, .add 1 64, .sub 0, .add 2 128, .sub 1, .add 2 128] = some s ∧
      s.granted = [(64, 128), (128, 128)] ∧ ¬ Bump.Good 640 s) ∧
    ∃ s, (BumpAllocator.allocChunk 10).exec 4
        [.load 0 9, .load 1 1, .load 2 1, .load 3 2, .add 2 1, .add 0 9, .add 1 1,
          .sub 0, .add 3 2, .sub 1, .load 3 2, .add 3 2] = some s ∧
      s.granted = [(1, 1), (3, 2), (4, 2)] ∧ ¬ Bump.Good 10 s := by
  have hcache : ((BumpAllocator.allocCache 640).exec 3
      [.add 0 704, .add 1 64, .sub 0, .add 2 128, .sub 1, .add 2 128]).map Bump.State.granted =
      some [(64, 128), (128, 128)] := by decide +kernel
  have hchunk : ((BumpAllocator.allocChunk 10).exec 4
      [.load 0 9, .load 1 1, .load 2 1, .load 3 2, .add 2 1, .add 0 9, .add 1 1,
        .sub 0, .add 3 2, .sub 1, .load 3 2, .add 3 2]).map Bump.State.granted =
      some [(1, 1), (3, 2), (4, 2)] := by decide +kernel
  obtain ⟨s, hs, hg⟩ := map_eq_some_iff.mp hcache
  obtain ⟨s', hs', hg'⟩ := map_eq_some_iff.mp hchunk
  refine ⟨⟨s, hs, hg, fun hgood => ?_⟩, s', hs', hg', fun hgood => ?_⟩
  · have hap := hgood.apart
    rw [hg, List.pairwise_pair] at hap
    exact hap 128 (by decide)
  · have hap := hgood.apart
    rw [hg', List.pairwise_cons, List.pairwise_pair] at hap
    exact hap.2 4 (by decide)

end Fusa.Smart

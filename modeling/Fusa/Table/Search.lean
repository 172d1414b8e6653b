import Fusa.Table.Content

/-! `RemoteHashTable::search` with its directory and key caches. -/
namespace Fusa.Table
open Function Option List

/-! ### `KeyCache` -/

/-- An entry of the `GenericCache`: where the slot of a key was found, and the slot. -/
structure CacheEntry where
  key : Bytes
  addr : ℕ
  slot : Slot
deriving DecidableEq, Repr

/-- The entries by index, where those with `valid[idx] == false` are missing. -/
abbrev KeyCache := ℕ → Option CacheEntry

/-- Whether the version lock is found free in the three operations on the cache. -/
structure CacheLocks where
  find : Bool
  erase : Bool
  add : Bool

section
variable (index : Bytes → ℕ)

def KeyCache.find (cache : KeyCache) (locks : CacheLocks) (key : Bytes) : Option CacheEntry :=
  (cache (index key)).filter fun e => e.key = key ∧ locks.find

def KeyCache.add (cache : KeyCache) (locks : CacheLocks) (e : CacheEntry) : KeyCache :=
  if locks.add then update cache (index e.key) (some e) else cache

def KeyCache.erase (cache : KeyCache) (locks : CacheLocks) (key : Bytes) : KeyCache :=
  if locks.erase then update cache (index key) none else cache

end

section
variable (hash : Bytes → Hashes)

/-! ### The slow path -/

/-- One pass over the buckets of `key` in the subtable at `base`, with the entry for the cache. -/
def searchPass (m : Memory) (base : ℕ) (key : Bytes) : Option (CacheEntry × Bytes) :=
  let slot := fun q => m.slot (posAddr base (hash key) q)
  (findKey m.block (hash key) key slot).bind fun q =>
    ((m.block (slot q).pointer).bind (readBlock key)).map fun value =>
      (⟨key, bucketAddr base (bucketNo (hash key) (q / kAssociatedWays)), slot q⟩, value)

/-- What `search` has found, the directory it leaves cached, and its reads of the directory. -/
structure Lookup where
  found : Option (CacheEntry × Bytes)
  dirCache : Directory
  rereads : ℕ

/-- `search` after `fast_search`. -/
def slowSearch (m : Memory) (d : Directory) (key : Bytes) : Lookup :=
  let e := d.entry (hash key)
  match searchPass hash m e.pointer key with
  | some r => ⟨some r, d, 0⟩
  | none =>
    if (List.range 4).any fun i =>
        stale (hash key) e (m.header (bucketAddr e.pointer (bucketNo (hash key) i))) then
      -- `retry_flag` is set: no third pass
      ⟨searchPass hash m (m.dir.entry (hash key)).pointer key, m.dir, 1⟩
    else ⟨none, d, 0⟩

/-! ### The fast path -/

/-- The slot still stands in the bucket that the cache remembers. -/
def CacheEntry.current (m : Memory) (e : CacheEntry) : Bool :=
  (List.range kAssociatedWays).any fun j =>
    let s := m.slot (e.addr + 8 + 8 * j)
    s ≠ .null ∧ s.fp = getFingerprint (hash e.key).h0 ∧ s = e.slot

variable (index : Bytes → ℕ)

/-- `fast_search`, with the cache it leaves. -/
def fastSearch (fast : Bool) (m : Memory) (cache : KeyCache) (locks : CacheLocks) (key : Bytes) :
    Option Bytes × KeyCache :=
  if fast then
    match cache.find index locks key with
    | none => (none, cache)
    | some e =>
      match (m.block e.slot.pointer).bind (readBlock key) with
      | none => (none, cache.erase index locks key)
      | some value =>
        if e.current hash m then (some value, cache) else (none, cache.erase index locks key)
  else (none, cache)

/-- A call of `search` while the memory is at rest: its answer and both caches. -/
def searchCall (fast : Bool) (m : Memory) (d : Directory) (cache : KeyCache) (locks : CacheLocks)
    (key : Bytes) : Option Bytes × Directory × KeyCache :=
  match fastSearch hash index fast m cache locks key with
  | (some value, cache) => (some value, d, cache)
  | (none, cache) =>
    let r := slowSearch hash m d key
    (r.found.map Prod.snd, r.dirCache,
      match r.found with
      | some (e, _) => if fast then cache.add index locks e else cache
      | none => cache)

end

variable {hash : Bytes → Hashes} {index : Bytes → ℕ} {m : Memory} {d : Directory} {key : Bytes}

theorem searchAt_eq_searchPass (base : ℕ) :
    searchAt hash m base key = (searchPass hash m base key).map Prod.snd := by
  unfold searchAt searchPass
  dsimp only
  rw [map_bind]
  refine congrArg _ (funext fun q => ?_)
  simp [comp_def]

theorem slowSearch_found : (slowSearch hash m d key).found.map Prod.snd = search hash m d key := by
  unfold slowSearch search
  dsimp only
  rw [searchAt_eq_searchPass]
  cases searchPass hash m (d.entry (hash key)).pointer key with
  | some r => rfl
  | none =>
    simp only [map_none]
    split
    · exact (searchAt_eq_searchPass _).symm
    · rfl

variable {base : ℕ} {e : CacheEntry} {value : Bytes}

theorem searchPass_eq_some (h : searchPass hash m base key = some (e, value)) :
    e.key = key ∧ e.slot ≠ .null ∧ e.slot.fp = getFingerprint (hash key).h0 ∧
      ∃ q < 28, e.addr = bucketAddr base (bucketNo (hash key) (q / kAssociatedWays)) ∧
        e.slot = m.slot (posAddr base (hash key) q) ∧
        ∃ b, m.block e.slot.pointer = some b ∧ readBlock key b = some value := by
  obtain ⟨q, hq, hv⟩ := bind_eq_some_iff.mp h
  obtain ⟨v, hv, he⟩ := map_eq_some_iff.mp hv
  obtain ⟨b, hb, hr⟩ := bind_eq_some_iff.mp hv
  cases he
  have hmatch := List.find?_some hq
  simp only [matchesKey, decide_eq_true_eq] at hmatch
  exact ⟨rfl, hmatch.1, hmatch.2.1, q, mem_positions.mp (mem_of_find?_eq_some hq), rfl, rfl,
    b, hb, hr⟩

theorem slowSearch_eq_some (h : (slowSearch hash m d key).found = some (e, value)) :
    ∃ d', (d' = d ∨ d' = m.dir) ∧
      searchPass hash m (d'.entry (hash key)).pointer key = some (e, value) := by
  unfold slowSearch at h
  dsimp only at h
  split at h
  · rename_i r hr
    cases h
    exact ⟨d, .inl rfl, hr⟩
  · split at h
    · exact ⟨m.dir, .inr rfl, h⟩
    · cases h

theorem slowSearch_dirCache (hash : Bytes → Hashes) (m : Memory) (d : Directory) (key : Bytes) :
    (slowSearch hash m d key).dirCache = d ∨ (slowSearch hash m d key).dirCache = m.dir := by
  unfold slowSearch
  dsimp only
  split
  · exact .inl rfl
  · split
    · exact .inr rfl
    · exact .inl rfl

/-! ### What the cache names -/

def KeyCache.All (cache : KeyCache) (P : CacheEntry → Prop) : Prop := ∀ i e, cache i = some e → P e

def KeyCache.Names (cache : KeyCache) (m : Memory) : Prop :=
  ∀ i e, cache i = some e → ∃ b, m.block e.slot.pointer = some b ∧ b.key = e.key

variable {cache : KeyCache} {locks : CacheLocks} {fast : Bool} {P : CacheEntry → Prop}

theorem KeyCache.All.add (h : cache.All P) (he : P e) : (cache.add index locks e).All P := by
  unfold KeyCache.add
  split
  · intro i e' he'
    by_cases hi : i = index e.key
    · subst hi
      rw [update_self] at he'
      cases he'
      exact he
    · rw [update_of_ne hi] at he'
      exact h i e' he'
  · exact h

theorem KeyCache.All.erase (h : cache.All P) : (cache.erase index locks key).All P := by
  unfold KeyCache.erase
  split
  · intro i e he
    by_cases hi : i = index key
    · subst hi
      simp at he
    · rw [update_of_ne hi] at he
      exact h i e he
  · exact h

theorem KeyCache.All.fastSearch (h : cache.All P) :
    (fastSearch hash index fast m cache locks key).2.All P := by
  unfold Table.fastSearch
  split
  · split
    · exact h
    · split
      · exact h.erase
      · split
        · exact h
        · exact h.erase
  · exact h

theorem fastSearch_eq_some (h : (fastSearch hash index fast m cache locks key).1 = some value) :
    ∃ e, cache (index key) = some e ∧ e.key = key ∧ e.slot ≠ .null ∧
      (m.block e.slot.pointer).bind (readBlock key) = some value ∧
      ∃ j < kAssociatedWays, m.slot (e.addr + 8 + 8 * j) = e.slot := by
  unfold fastSearch at h
  split at h
  · split at h
    · cases h
    · rename_i e he
      split at h
      · cases h
      · rename_i v hv
        split at h
        · rename_i hcur
          cases h
          obtain ⟨he, hek⟩ := filter_eq_some_iff.mp he
          simp only [decide_eq_true_eq] at hek
          simp only [CacheEntry.current, List.any_eq_true, decide_eq_true_eq] at hcur
          obtain ⟨j, hj, hne, -, hs⟩ := hcur
          exact ⟨e, he, hek.1, hs ▸ hne, hv, j, mem_range.mp hj, hs⟩
        · cases h
  · cases h

/-- What the slow path has just put into the cache is what `fast_search` answers. -/
theorem fastSearch_add (hfind : locks.find = true) (hadd : locks.add = true)
    (h : searchPass hash m base key = some (e, value)) :
    (fastSearch hash index true m (cache.add index locks e) locks key).1 = some value := by
  obtain ⟨hk, hne, hfp, q, -, haddr, hs, b, hb, hread⟩ := searchPass_eq_some h
  have hcur : e.current hash m = true := by
    refine any_eq_true.mpr ⟨q % kAssociatedWays, mem_range.mpr (Nat.mod_lt _ (by decide)),
      decide_eq_true ?_⟩
    have hslot : m.slot (e.addr + 8 + 8 * (q % kAssociatedWays)) = e.slot := by
      rw [haddr, hs]
      rfl
    rw [hslot, hk]
    exact ⟨hne, hfp, rfl⟩
  have hentry : (cache.add index locks e).find index locks key = some e := by
    rw [KeyCache.find, KeyCache.add, if_pos hadd, hk, update_self]
    exact filter_eq_some_iff.mpr ⟨rfl, decide_eq_true ⟨hk, hfind⟩⟩
  simp only [fastSearch, if_true, hentry, hb, bind_some, hread, hcur]

theorem searchCall_of_miss (hmiss : cache.find index locks key = none)
    (hs : (slowSearch hash m d key).found = some (e, value)) :
    searchCall hash index true m d cache locks key =
      (some value, (slowSearch hash m d key).dirCache, cache.add index locks e) := by
  simp only [searchCall, fastSearch, if_true, hmiss, hs, map_some]

theorem KeyCache.Names.mono {m' : Memory} (h : cache.Names m)
    (hb : ∀ p b, m.block p = some b → m'.block p = some b) : cache.Names m' := by
  intro i e he
  obtain ⟨b, hpb, hk⟩ := h i e he
  exact ⟨b, hb _ b hpb, hk⟩

/-- The value that `fast_search` answers with stands in a slot of the table, with the key. -/
theorem KeyCache.Names.holds (h : cache.Names m)
    (hf : (Table.fastSearch hash index fast m cache locks key).1 = some value) :
    ∃ a b, m.Holds a b ∧ b.key = key ∧ value = strncpy b.value := by
  obtain ⟨e, he, rfl, hne, hv, j, -, hs⟩ := fastSearch_eq_some hf
  obtain ⟨b, hb, hk⟩ := h _ e he
  rw [hb, bind_some, ← hk, readBlock_self] at hv
  exact ⟨_, b, ⟨hs ▸ hne, hs ▸ hb⟩, hk, (Option.some.inj hv).symm⟩

theorem searchCall_cases (hash : Bytes → Hashes) (index : Bytes → ℕ) (fast : Bool) (m : Memory)
    (d : Directory) (cache : KeyCache) (locks : CacheLocks) (key : Bytes) :
    let r := searchCall hash index fast m d cache locks key
    let f := fastSearch hash index fast m cache locks key
    (∃ value, f.1 = some value ∧ r = (some value, d, f.2)) ∨
      r.1 = search hash m d key ∧ r.2.1 = (slowSearch hash m d key).dirCache ∧
        (r.2.2 = f.2 ∨ ∃ d' e value, (d' = d ∨ d' = m.dir) ∧
          searchPass hash m (d'.entry (hash key)).pointer key = some (e, value) ∧
          r.2.2 = f.2.add index locks e) := by
  intro r f
  cases hf : f.1 with
  | some value =>
    refine .inl ⟨value, rfl, ?_⟩
    simp only [r, searchCall]
    split
    · rename_i v c hv
      have hv' : f = (some v, c) := hv
      rw [hv'] at hf ⊢
      cases hf
      rfl
    · rename_i c hv
      have hv' : f = (none, c) := hv
      rw [hv'] at hf
      cases hf
  | none =>
    refine .inr ?_
    rw [← slowSearch_found]
    simp only [r, searchCall]
    split
    · rename_i v c hv
      have hv' : f = (some v, c) := hv
      rw [hv'] at hf
      cases hf
    · rename_i c hv
      have hv' : f = (none, c) := hv
      rw [hv']
      refine ⟨rfl, rfl, ?_⟩
      split
      · rename_i e value hs
        split
        · obtain ⟨d', hd, hb⟩ := slowSearch_eq_some hs
          exact .inr ⟨d', e, value, hd, hb, rfl⟩
        · exact .inl rfl
      · exact .inl rfl

end Fusa.Table

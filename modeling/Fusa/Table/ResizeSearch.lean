import Fusa.Lib.Lists
import Fusa.Table.Extendible

/-! `search` before and after a `resize` with nothing else running. -/
namespace Fusa.Table

open List Nat

def slotValue (block : ℕ → Option Block) (hs : Hashes) (key : Bytes) (s : Slot) : Option Bytes :=
  if matchesKey block hs key s then (block s.pointer).bind (readBlock key) else none

def Memory.Stores (m : Memory) (c : Block) : Prop :=
  ∃ i < 2 ^ m.dir.globalDepth, ∃ b j a, IsSlot (m.dir.subtables i).pointer b j a ∧ m.Holds a c

/-- `read_block` of `key` accepts a block of `k`. -/
def Accepts (k key : Bytes) : Prop := strncmpEq k.length (strncpy k) key
deriving Decidable

/-- Keys that `read_block` takes for one another are never parted by a split. -/
def Together (hash : Bytes → Hashes) (K : Bytes → Prop) : Prop :=
  ∀ k key, K k → K key → Accepts k key →
    (hash (strncpy k)).h0.toNat % 2 ^ kMaxGlobalDepth = (hash key).h0.toNat % 2 ^ kMaxGlobalDepth

variable {x : Split} {hash : Bytes → Hashes} {K : Bytes → Prop} {alloc : ℕ → ℕ} {m₀ m : Memory}
  {r : Resizer} {key : Bytes}

theorem PrefixFree.together (hK : PrefixFree K) : Together hash K := by
  intro k key hk hkey hacc
  rw [Accepts, strncpy_of_nulFree (hK.nulFree k hk), strncmpEq_iff_begins (hK.nulFree k hk)] at hacc
  rw [strncpy_of_nulFree (hK.nulFree k hk), hK.eq_of_begins k key hk hkey hacc]

theorem accepts_of_readBlock {b : Block} {v : Bytes} (h : readBlock key b = some v) :
    Accepts b.key key := by
  unfold readBlock at h
  split at h
  · rename_i hacc
    exact hacc
  · cases h

theorem slotValue_null (block : ℕ → Option Block) (hs : Hashes) :
    slotValue block hs key .null = none := by
  simp [slotValue, matchesKey]

theorem slotValue_isSome {block : ℕ → Option Block} {hs : Hashes} {s : Slot}
    (h : (slotValue block hs key s).isSome) :
    s ≠ .null ∧ ∃ b, block s.pointer = some b ∧ Accepts b.key key := by
  unfold slotValue at h
  split at h
  · rename_i hm
    simp only [matchesKey, decide_eq_true_eq] at hm
    obtain ⟨v, hv⟩ := Option.isSome_iff_exists.mp h
    obtain ⟨b, hb, hr⟩ := Option.bind_eq_some_iff.mp hv
    exact ⟨hm.1, b, hb, accepts_of_readBlock hr⟩
  · cases h

theorem posAddr_mul_add (base : ℕ) (hs : Hashes) (i : ℕ) {j : ℕ} (hj : j < kAssociatedWays) :
    posAddr base hs (i * kAssociatedWays + j) = slotAddr base (bucketNo hs i) j := by
  have hj : j < 7 := hj
  unfold posAddr
  congr 2 <;> simp only [kAssociatedWays] <;> omega

theorem searchAt_eq_findSome (base : ℕ) :
    searchAt hash m base key = (List.range 4).findSome? fun i =>
      (List.range kAssociatedWays).findSome? fun j =>
        slotValue m.block (hash key) key (m.slot (slotAddr base (bucketNo (hash key) i) j)) := by
  unfold searchAt findKey
  dsimp only
  rw [FindSome.find_bind]
  · rw [positions, FindSome.range_mul]
    refine FindSome.congr fun i _ => FindSome.congr fun j hj => ?_
    rw [posAddr_mul_add _ _ _ (mem_range.mp hj)]
    rfl
  · intro q _ hm
    simp only [matchesKey, decide_eq_true_eq] at hm
    exact hm.2.2

section
variable (h₀ : Extendible hash m₀) (hx : Splittable x m₀) (h : Alone x hash alloc m₀ m r)
  (hpc : r.pc = .returned)
include h₀ hx

theorem Together.movesSlot_iff (hK : Together hash K) (hkeys : ∀ c, m₀.Stores c → K c.key)
    (hkey : K key) {b j : ℕ} (hb : b < kTotalBuckets) (hj : j < kAssociatedWays)
    (hs : (slotValue m₀.block (hash key) key (x.slot₀ m₀ b j)).isSome) :
    x.movesSlot hash m₀ b j ↔ x.Moves hash key := by
  obtain ⟨hne, c, hc, hacc⟩ := slotValue_isSome hs
  have hst : m₀.Stores c := by
    refine ⟨x.idx, hx.dir ▸ hx.idx_lt, b, j, slotAddr x.oldTable b j, ?_, hne, hc⟩
    rw [← hx.dir]
    exact ⟨hb, hj, rfl⟩
  have hmod := hK c.key key (hkeys c hst) hkey hacc
  have hle : x.depth + 1 ≤ kMaxGlobalDepth := h₀.depth_lt_max hx
  have hmod' : (hash c.storedKey).h0.toNat % 2 ^ (x.depth + 1) =
      (hash key).h0.toNat % 2 ^ (x.depth + 1) := by
    have := congrArg (· % 2 ^ (x.depth + 1)) hmod
    simp only [mod_mod_of_dvd _ (pow_dvd_pow 2 hle)] at this
    exact this
  rw [Split.movesSlot_iff, Split.Moves, ← hmod']
  simp [hne, movesTo, hc]

theorem Extendible.entry_of_member (hk : x.Member hash key) :
    m₀.dir.entry (hash key) = ⟨0, x.depth, x.oldTable⟩ := by
  rw [← hx.dir]
  refine h₀.class_entry hx (Nat.mod_lt _ (Nat.two_pow_pos _)) ?_
  rw [Directory.index, h₀.mod_class hx, hk]

include h hpc

omit h₀ hx in
theorem Alone.entry_of_member (hk : x.Member hash key) :
    m.dir.entry (hash key) = ⟨0, x.depth + 1, x.tableOf (hash key).h0.toNat⟩ := by
  have hd := h.deep hpc
  rw [Directory.entry, Directory.index, h.entry_class hpc (Nat.mod_lt _ (Nat.two_pow_pos _)),
    x.tableOf_mod hd]
  rwa [mod_mod_of_dvd _ (pow_dvd_pow 2 hd.le)]

omit h₀ in
theorem Alone.entry_of_not_member (hk : ¬ x.Member hash key) :
    m.dir.entry (hash key) = m₀.dir.entry (hash key) := by
  have hd := h.deep hpc
  rw [Directory.entry, Directory.index, h.entry_other hpc (Nat.mod_lt _ (Nat.two_pow_pos _)),
    mod_mod_of_dvd _ (pow_dvd_pow 2 (h.kept hpc).le), ← hx.dir]
  · rfl
  · rwa [mod_mod_of_dvd _ (pow_dvd_pow 2 hd.le)]

theorem Alone.stores {c : Block} (hc : m.Stores c) : m₀.Stores c := by
  obtain ⟨i, hi, b, j, a, ha, hne, hcb⟩ := hc
  have hex := h.exact hpc
  have hold : ∀ l < kAssociatedWays, b < kTotalBuckets → x.slot₀ m₀ b l ≠ .null →
      m₀.block (x.slot₀ m₀ b l).pointer = some c → m₀.Stores c := by
    intro l hl hb hne hcb
    refine ⟨x.idx, hx.dir ▸ hx.idx_lt, b, l, slotAddr x.oldTable b l, ?_, hne, hcb⟩
    rw [← hx.dir]
    exact ⟨hb, hl, rfl⟩
  rw [hex.block] at hcb
  rcases h.entry_cases h₀ hx hpc hi with ⟨-, he⟩ | ⟨-, he⟩ | ⟨k, hk, rfl, hcl, he⟩ <;> rw [he] at ha
  · have hslot := hex.kept b j a ha fun hm => hne (hex.gone b j a ha hm.1 trivial)
    rw [hslot] at hne hcb
    exact hold j ha.slot_lt ha.bucket_lt hne hcb
  · rw [hex.copies rfl b j a ha] at hne hcb
    obtain ⟨l, hl, hm, heq⟩ := Split.exists_of_copies hne
    rw [← heq] at hne hcb
    exact hold l hl ha.bucket_lt hne hcb
  · have hslot := hex.others a ((hx.fresh _ hk).not_inTable ha.bounds) fun _ _ hsl =>
      (h₀.other_apart hx hk hcl).ne ha hsl
    rw [hslot] at hne hcb
    refine ⟨_, hx.dir ▸ hk, b, j, a, ?_, hne, hcb⟩
    rwa [← hx.dir]

theorem Alone.searchAt_other (hk : ¬ x.Member hash key) :
    searchAt hash m (m₀.dir.entry (hash key)).pointer key =
      searchAt hash m₀ (m₀.dir.entry (hash key)).pointer key := by
  have hex := h.exact hpc
  have hlt : x.dir.index (hash key) < 2 ^ x.dir.globalDepth := Nat.mod_lt _ (Nat.two_pow_pos _)
  have hc : x.dir.index (hash key) % 2 ^ x.depth ≠ x.oldSuffix := by
    rwa [Directory.index, h₀.mod_class hx]
  rw [searchAt_eq_findSome, searchAt_eq_findSome, hex.block, ← hx.dir]
  refine FindSome.congr fun i _ => FindSome.congr fun j hj => congrArg _ ?_
  have hsl : IsSlot (x.dir.entry (hash key)).pointer (bucketNo (hash key) i) j _ :=
    ⟨bucketNo_lt _ _, mem_range.mp hj, rfl⟩
  exact hex.others _ ((hx.fresh _ hlt).not_inTable hsl.bounds) fun _ _ hsl' =>
    (h₀.other_apart hx hlt hc).ne hsl hsl'

section
variable (hK : Together hash K) (hkeys : ∀ c, m₀.Stores c → K c.key) (hkey : K key)
include hK hkeys hkey

theorem Alone.searchAt_old (hmv : ¬ x.Moves hash key) :
    searchAt hash m x.oldTable key = searchAt hash m₀ x.oldTable key := by
  have hex := h.exact hpc
  rw [searchAt_eq_findSome, searchAt_eq_findSome, hex.block]
  refine FindSome.congr fun i _ => FindSome.congr fun j hj => ?_
  have hj := mem_range.mp hj
  have hb := bucketNo_lt (hash key) i
  have hsl : IsSlot x.oldTable (bucketNo (hash key) i) j _ := ⟨hb, hj, rfl⟩
  by_cases hm : x.movesSlot hash m₀ (bucketNo (hash key) i) j
  · rw [hex.gone _ j _ hsl hm trivial, slotValue_null]
    refine (Option.not_isSome_iff_eq_none.mp fun hs => hmv ?_).symm
    exact (hK.movesSlot_iff h₀ hx hkeys hkey hb hj hs).mp hm
  · rw [hex.kept _ j _ hsl fun hc => hm hc.1]
    rfl

theorem Alone.searchAt_new (hmv : x.Moves hash key) :
    searchAt hash m x.newTable key = searchAt hash m₀ x.oldTable key := by
  have hex := h.exact hpc
  rw [searchAt_eq_findSome, searchAt_eq_findSome, hex.block]
  refine FindSome.congr fun i _ => ?_
  have hb := bucketNo_lt (hash key) i
  generalize bucketNo (hash key) i = b at hb ⊢
  calc ((List.range kAssociatedWays).findSome? fun j =>
          slotValue m₀.block (hash key) key (m.slot (slotAddr x.newTable b j)))
      = (List.range kAssociatedWays).findSome? fun j => slotValue m₀.block (hash key) key
          ((x.copies hash m₀ b kAssociatedWays).getD j .null) := by
        refine FindSome.congr fun j hj => ?_
        rw [hex.copies rfl b j _ ⟨hb, mem_range.mp hj, rfl⟩]
        rfl
    _ = (x.copies hash m₀ b kAssociatedWays).findSome? (slotValue m₀.block (hash key) key) := by
        refine FindSome.range_getD (slotValue_null _ _) ?_
        rw [Split.length_copies]
        exact x.length_movers_le hash m₀ b _
    _ = (List.range kAssociatedWays).findSome? fun j =>
          slotValue m₀.block (hash key) key (x.slot₀ m₀ b j) := by
        rw [Split.copies, List.findSome?_map, Split.movers]
        refine FindSome.filter fun j hj hs => ?_
        exact (hK.movesSlot_iff h₀ hx hkeys hkey hb (mem_range.mp hj) hs).mpr hmv

theorem Alone.search_eq : search hash m m.dir key = search hash m₀ m₀.dir key := by
  rw [search_eq_searchAt, search_eq_searchAt]
  by_cases hk : x.Member hash key
  · rw [h.entry_of_member hpc hk, h₀.entry_of_member hx hk]
    by_cases hmv : x.Moves hash key
    · rw [Split.tableOf_of_new hmv]
      exact h.searchAt_new h₀ hx hpc hK hkeys hkey hmv
    · rw [show x.tableOf (hash key).h0.toNat = x.oldTable from if_neg hmv]
      exact h.searchAt_old h₀ hx hpc hK hkeys hkey hmv
  · rw [h.entry_of_not_member hx hpc hk]
    exact h.searchAt_other h₀ hx hpc hk

end

end

end Fusa.Table

import Fusa.Table.MovingKey
import Fusa.Table.OneEntry
import Fusa.Table.ResizeTasks
import Fusa.Table.ResizeSearch

/-! When a `resize` with nothing else running preserves what `search` finds. -/
namespace Fusa.Table
open Function Option Nat

variable (hash : Bytes → Hashes)

/-- On tables of keys in `K` a `resize` by `task` restores the invariant and what `search` finds. -/
def Preserves (K : Bytes → Prop) (task : ℤ) (lock : ResizeLock) : Prop :=
  ∀ x m alloc r, Extendible hash m → (∀ c, m.Stores c → K c.key) → Splittable x m →
    x.Starts alloc r → ∃ m' c', LockedRuns hash alloc (m, ⟨task, lock, true, r⟩) (m', c') ∧
      c'.resizer.pc = .returned ∧ Extendible hash m' ∧
      ∀ key, K key → search hash m' m'.dir key = search hash m m.dir key

def tables (d : ℕ) : Memory where
  dir := ⟨d, false, fun i => ⟨0, d, bucketBytes * kTotalBuckets * (i + 1)⟩⟩
  header a := ⟨d, a / (bucketBytes * kTotalBuckets) - 1⟩
  slot _ := .null
  block _ := none

def parted (d : ℕ) (k key : Bytes) : Memory where
  dir := (tables d).dir
  header := (tables d).header
  slot := Function.update (tables d).slot
    (posAddr ((tables d).dir.entry (hash key)).pointer (hash key) 0)
    ⟨getFingerprint (hash key).h0, 1, 64⟩
  block := Function.update (tables d).block 64 (some ⟨k, []⟩)

variable {hash} {K : Bytes → Prop} {x : Split} {alloc : ℕ → ℕ} {m₀ m m' : Memory}
  {r r' : Resizer} {d : ℕ} {k key : Bytes} {task : ℤ} {lock : ResizeLock}

theorem Splittable.idle (hx : Splittable x m) (hm : Extendible hash m) :
    ∀ i < 2 ^ x.dir.globalDepth, (x.dir.subtables i).lock = 0 := by
  rw [hx.dir]
  exact hm.idle

theorem Extendible.exists_returned (task : ℤ) (lock : ResizeLock) (hm : Extendible hash m)
    (hx : Splittable x m) (hr : x.Starts alloc r) (hl : lock.admits task) :
    ∃ m' c', LockedRuns hash alloc (m, ⟨task, lock, true, r⟩) (m', c') ∧
      c'.resizer.pc = .returned ∧ Alone x hash alloc m m' c'.resizer := by
  have hpc := hr.pc
  obtain ⟨r₁, hread, hpc₁⟩ : ∃ r₁, resizeStep hash alloc m r = some (m, r₁) ∧ r₁.pc = .size :=
    ⟨_, by simp only [resizeStep, hpc, hm.unlocked]; rfl, rfl⟩
  have h := (hm.alone hx hr).step hread hx.apart (hx.idle hm)
  obtain ⟨m', c', hruns, hends⟩ := Alone.exists_lockedRuns hx.apart (hx.idle hm)
    (c := ⟨task, lock.acquire task, false, r₁⟩) rfl h (hm.depth_lt_max hx)
  refine ⟨m', c', .head (b := (m, ⟨task, lock, true, r₁⟩)) ?_ (.head ?_ hruns), hends⟩
  · simp [lockedStep, hpc, hread]
  · simp [lockedStep, hl, hpc₁]

theorem preserves_of_together (hK : Together hash K) (hl : lock.admits task) :
    Preserves hash K task lock := by
  intro x m alloc r hm hkeys hx hr
  obtain ⟨m', c', hruns, hpc, h⟩ := hm.exists_returned task lock hx hr hl
  exact ⟨m', c', hruns, hpc, h.extendible hm hx hpc,
    fun key hkey => h.search_eq hm hx hpc hK hkeys hkey⟩

theorem Alone.search_eq_none (key : Bytes) (h₀ : Extendible hash m₀) (hx : Splittable x m₀)
    (h : Alone x hash alloc m₀ m r) (hpc : r.pc = .returned) (hk : x.Member hash key)
    (hpart : ∀ p c, m₀.block p = some c → (hash c.storedKey).h0.toNat % 2 ^ (x.depth + 1) ≠
        (hash key).h0.toNat % 2 ^ (x.depth + 1)) : search hash m m.dir key = none := by
  rw [search_eq_searchAt]
  refine not_isSome_iff_eq_none.mp fun hs => ?_
  obtain ⟨v, hv⟩ := isSome_iff_exists.mp hs
  obtain ⟨q, hq, b, hb, -⟩ := searchAt_eq_some hv
  have hsl := isSlot_posAddr (m.dir.entry (hash key)).pointer (hash key) q
  obtain ⟨c, hc, hmod⟩ := (h.extendible h₀ hx hpc).stored (m.dir.index (hash key))
    (Nat.mod_lt _ (Nat.two_pow_pos _)) _ _ _ hsl hb.1
  rw [(h.exact hpc).block] at hc
  refine hpart _ c hc ?_
  have he := h.entry_of_member hpc hk
  rw [Directory.entry] at he
  rwa [he, Directory.index, mod_mod_of_dvd _ (pow_dvd_pow 2 (h.deep hpc))] at hmod

/-! ### Subtables of one depth -/

theorem extendible_of_tables (hd : d ≤ kMaxGlobalDepth) (hdir : m.dir = (tables d).dir)
    (hh : m.header = (tables d).header)
    (hst : ∀ i < 2 ^ d, ∀ b j a, IsSlot (bucketBytes * kTotalBuckets * (i + 1)) b j a →
      m.slot a ≠ .null → ∃ c, m.block (m.slot a).pointer = some c ∧
        (hash c.storedKey).h0.toNat % 2 ^ d = i) : Extendible hash m := by
  have hmod : ∀ i < 2 ^ d, i % 2 ^ d = i := fun i hi => mod_eq_of_lt hi
  refine ⟨?_, ?_, ?_, ?_, ?_, ?_, ?_, ?_⟩ <;> rw [hdir]
  · rfl
  · exact hd
  · exact fun _ _ => le_refl d
  · exact fun _ _ => rfl
  · intro i hi j hj hij
    have hij : j % 2 ^ d = i % 2 ^ d := hij
    rw [hmod i hi, hmod j hj] at hij
    exact ⟨by rw [hij], rfl⟩
  · intro i hi b hb
    rw [hh]
    have hlt : bucketBytes * b < bucketBytes * kTotalBuckets :=
      mul_lt_mul_of_pos_left hb (by decide)
    simp only [tables, bucketAddr, Header.mk.injEq, true_and]
    rw [mul_add_div (by decide), div_eq_of_lt hlt, hmod i hi]
    rfl
  · intro i _ j _ hne
    exact apart_setup fun hij => hne (congrArg (bucketBytes * kTotalBuckets * ·) hij)
  · intro i hi b j a ha hne
    obtain ⟨c, hc, hm⟩ := hst i hi b j a ha hne
    exact ⟨c, hc, hm.trans (hmod i hi).symm⟩

def tablesSplit (d idx : ℕ) : Split :=
  ⟨(tables d).dir, idx, bucketBytes * kTotalBuckets * (2 ^ d + 1)⟩

theorem splittable_tables {idx : ℕ} (hdir : m.dir = (tables d).dir) (hd : d < kMaxGlobalDepth)
    (hidx : idx < 2 ^ d) : Splittable (tablesSplit d idx) m := by
  refine ⟨hdir.symm, hidx, fun _ => hd, fun i hi => apart_setup ?_⟩
  have hi : i < 2 ^ d := hi
  omega

def resizeCall (idx : ℕ) : Resizer := { startResizer with subtableIdx := idx }

theorem starts_tables (d idx : ℕ) :
    (tablesSplit d idx).Starts (fun _ => (tablesSplit d idx).newTable) (resizeCall idx) :=
  ⟨rfl, rfl, rfl, rfl⟩

theorem eq_of_slot_parted {a : ℕ} (h : (parted hash d k key).slot a ≠ .null) :
    a = posAddr ((tables d).dir.entry (hash key)).pointer (hash key) 0 ∧
      (parted hash d k key).block ((parted hash d k key).slot a).pointer = some ⟨k, []⟩ := by
  have ha : a = posAddr ((tables d).dir.entry (hash key)).pointer (hash key) 0 := by
    by_contra hne
    exact h (update_of_ne hne _ _)
  subst ha
  simp [parted]

theorem eq_of_block_parted {p : ℕ} {c : Block} (h : (parted hash d k key).block p = some c) :
    c = ⟨k, []⟩ := by
  by_cases hp : p = 64
  · subst hp
    simp only [parted, update_self, some.injEq] at h
    exact h.symm
  · simp [parted, update_of_ne hp, tables] at h

theorem extendible_parted (hd : d ≤ kMaxGlobalDepth)
    (hmod : (hash (strncpy k)).h0.toNat % 2 ^ d = (hash key).h0.toNat % 2 ^ d) :
    Extendible hash (parted hash d k key) := by
  refine extendible_of_tables hd rfl rfl fun i hi b j a ha hne => ?_
  obtain ⟨rfl, hb⟩ := eq_of_slot_parted hne
  refine ⟨_, hb, ?_⟩
  have hsl := isSlot_posAddr ((tables d).dir.entry (hash key)).pointer (hash key) 0
  by_contra hi'
  have hne : (hash key).h0.toNat % 2 ^ d + 1 ≠ i + 1 := fun he => hi' (hmod.trans (Nat.succ.inj he))
  exact (apart_setup hne).ne hsl ha

theorem search_parted (hash : Bytes → Hashes) (d : ℕ) (hacc : Accepts k key) :
    search hash (parted hash d k key) (parted hash d k key).dir key = some [] := by
  have hread : readBlock key ⟨k, []⟩ = some [] := if_pos hacc
  have hslot : (parted hash d k key).slot
      (posAddr ((parted hash d k key).dir.entry (hash key)).pointer (hash key) 0) =
        ⟨getFingerprint (hash key).h0, 1, 64⟩ := update_self ..
  have hne : (parted hash d k key).slot
      (posAddr ((parted hash d k key).dir.entry (hash key)).pointer (hash key) 0) ≠ .null := by
    intro h
    cases congrArg Slot.len (hslot.symm.trans h)
  have hsome := searchAt_isSome (q := 0) (by decide) ⟨hne, (eq_of_slot_parted hne).2⟩
    (congrArg Slot.fp hslot) (hread ▸ rfl)
  rw [search_eq_searchAt]
  obtain ⟨v, hv⟩ := isSome_iff_exists.mp hsome
  obtain ⟨q, -, b, hb, hr⟩ := searchAt_eq_some hv
  rw [eq_of_block_parted hb.2, hread] at hr
  rw [hv, hr]

/-- Keys that a split parts make `search` forget one of them. -/
theorem together_of_preserves (h : Preserves hash K task lock) : Together hash K := by
  intro k key hk hkey hacc
  by_contra hne
  obtain ⟨d, hd, hmod, hpart⟩ := Residue.exists_parting (2 ^ ·) rfl hne
  have hm := extendible_parted hd.le hmod
  have hx : Splittable (tablesSplit d ((hash key).h0.toNat % 2 ^ d)) (parted hash d k key) :=
    splittable_tables rfl hd (Nat.mod_lt _ (Nat.two_pow_pos _))
  have hr := starts_tables d ((hash key).h0.toNat % 2 ^ d)
  have hkeys : ∀ c, (parted hash d k key).Stores c → K c.key := by
    rintro c ⟨i, -, b, j, a, -, hc⟩
    rwa [eq_of_block_parted hc.2]
  obtain ⟨m', c', hruns, hpc, -, hsame⟩ := h _ _ _ _ hm hkeys hx hr
  have hal := Alone.lockedRuns hx.apart (hx.idle hm) (hm.alone hx hr) hruns
  have hnone := hal.search_eq_none key hm hx hpc (mod_mod _ _).symm fun p c hc => by
    rwa [eq_of_block_parted hc]
  have hsome := search_parted hash d hacc
  rw [← hsame key hkey, hnone] at hsome
  cases hsome

theorem extendible_setup (hash : Bytes → Hashes) : Extendible hash setup :=
  extendible_of_tables (d := 10) (by decide) rfl rfl fun _ _ _ _ _ _ hne => absurd rfl hne

theorem admits_of_preserves (h : Preserves hash K task lock) : lock.admits task := by
  by_contra hl
  have hx : Splittable (tablesSplit 10 0) setup := splittable_tables rfl (by decide) (by decide)
  have hkeys : ∀ c, setup.Stores c → K c.key := by
    rintro c ⟨i, -, b, j, a, -, hne, -⟩
    exact absurd rfl hne
  obtain ⟨m', c', hruns, hpc, -⟩ := h _ _ _ _ (extendible_setup hash) hkeys hx (starts_tables 10 0)
  exact hruns.pc_of_kept_out rfl (Bool.eq_false_of_not_eq_true hl) rfl hpc

/-- `resize` preserves the contents exactly when no split parts keys taken for one another, and the
lock is free or the task's. -/
theorem preserves_iff_together (hash : Bytes → Hashes) (K : Bytes → Prop) (task : ℤ)
    (lock : ResizeLock) :
    Preserves hash K task lock ↔ Together hash K ∧ (lock.owner = -1 ∨ lock.owner = task) := by
  have hadm : lock.admits task ↔ (lock.owner = -1 ∨ lock.owner = task) := by
    simp [ResizeLock.admits]
  rw [← hadm]
  exact ⟨fun h => ⟨together_of_preserves h, admits_of_preserves h⟩,
    fun h => preserves_of_together h.1 h.2⟩

open Inserts in
theorem shortStored_eq : shortStored = parted hashFunction 10 shortKey longKey := by
  have hpos : posAddr (setup.dir.entry (hashFunction shortKey)).pointer (hashFunction shortKey) 0 =
      posAddr ((tables 10).dir.entry (hashFunction longKey)).pointer (hashFunction longKey) 0 := by
    decide +kernel
  have hslot : blockSlot hashFunction shortKey [] 64 =
      ⟨getFingerprint (hashFunction longKey).h0, 1, 64⟩ := by
    decide +kernel
  unfold shortStored storing parted
  rw [hpos, hslot]
  rfl

open Inserts in
/-- With `l` stored, `search` finds `l16809430` until subtable 704 is split. -/
theorem not_preserved_longKey :
    WellFormed hashFunction shortStored ∧ Extendible hashFunction shortStored ∧
      Splittable (tablesSplit 10 704) shortStored ∧
      ∃ m' c', LockedRuns hashFunction (fun _ => (tablesSplit 10 704).newTable)
        (shortStored, ⟨0, ⟨-1, 0⟩, true, resizeCall 704⟩) (m', c') ∧ c'.resizer.pc = .returned ∧
        search hashFunction shortStored shortStored.dir longKey = some [] ∧
        search hashFunction m' m'.dir longKey = none := by
  have hw : WellFormed hashFunction shortStored := wellFormed_storing [] 64
  rw [shortStored_eq] at hw ⊢
  have hm : Extendible hashFunction (parted hashFunction 10 shortKey longKey) :=
    extendible_parted (by decide) (by decide +kernel)
  have hx : Splittable (tablesSplit 10 704) (parted hashFunction 10 shortKey longKey) :=
    splittable_tables rfl (by decide) (by decide)
  obtain ⟨m', c', hruns, hpc, h⟩ := hm.exists_returned 0 ⟨-1, 0⟩ hx
    (starts_tables 10 704) rfl
  refine ⟨hw, hm, hx, m', c', hruns, hpc, search_parted _ _ (by decide),
    h.search_eq_none longKey hm hx hpc (by unfold Split.Member; decide +kernel) fun p c hc => ?_⟩
  rw [eq_of_block_parted hc]
  decide +kernel

end Fusa.Table

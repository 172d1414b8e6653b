import Fusa.Table.Tasks

/-! `insert` through a directory entry whose subtable has been split: the block stays in the old
table. -/
namespace Fusa.Table
open Function Option

variable {hash : Bytes → Hashes} {K : Bytes → Prop} {m : Memory} {d : Directory} {key : Bytes}
  {base q pointer : ℕ} {c : InsertCall} {r : Resizer} {value : Bytes}

theorem firstEmpty_of_null (h : m.slot (posAddr base (hash key) 0) = .null) :
    (m.buckets base (hash key)).firstEmpty = some 0 := by
  refine List.find?_range_eq_some.mpr ⟨decide_eq_true h, by decide, fun q hq => ?_⟩
  omega

/-- The branch for a split bucket: buffers filled from the new table, but `base` still the old. -/
theorem run_move (hpc : c.pc = .moveDir) (hu : m.dir.locked = false)
    (hq : (m.buckets (m.dir.entry (hash c.key)).pointer (hash c.key)).firstEmpty = some q) (n : ℕ) :
    insertRun hash (n + 3) m c = insertRun hash n m
      { c with dirCache := m.dir
               buf := m.buckets (m.dir.entry (hash c.key)).pointer (hash c.key)
               pc := .moveClaim q } := by
  let c₁ : InsertCall := { c with dirCache := m.dir, pc := .move0 }
  let c₂ : InsertCall := { c₁ with buf := c₁.read hash m 0, pc := .move1 }
  have h₁ : insertStep hash m c = some (m, c₁) := by
    simp [insertStep, hpc, hu, c₁]
  have h₂ : insertStep hash m c₁ = some (m, c₂) := rfl
  have hbuf : c₂.read hash m 1 = m.buckets (m.dir.entry (hash c.key)).pointer (hash c.key) :=
    readGroup_both ..
  rw [insertRun_step h₁, insertRun_step h₂]
  refine insertRun_step ?_
  simp only [insertStep, c₂]
  rw [hbuf, hq]

theorem run_moveClaim (hpc : c.pc = .moveClaim q) (hne : m.slot (c.addr hash q) ≠ c.buf.slot q)
    (n : ℕ) :
    insertRun hash (n + 1) m c = insertRun hash n m
      { c with buf := c.buf.setSlot q (m.slot (c.addr hash q)), pc := .check0 } := by
  refine insertRun_step ?_
  simp only [insertStep, hpc]
  rw [casSlot_of_ne hne, if_neg hne]

/-- With its buckets empty, `insert` through a stale entry puts its block into the old table. -/
theorem insertRun_stale (hpc : c.pc = .find0) (hfp : c.newSlot.fp = getFingerprint (hash c.key).h0)
    (hne : c.newSlot ≠ .null) (hu : m.dir.locked = false)
    (hold : m.slot (posAddr (c.entry hash).pointer (hash c.key) 0) = .null)
    (hnew : ∀ q < 28, m.slot (m.place hash c.key q) = .null)
    (hap : ∀ q, m.place hash c.key q ≠ posAddr (c.entry hash).pointer (hash c.key) 0)
    (hst : ∀ k, m.staleAt hash (c.entry hash) c.key k = true)
    (hns : ∀ k, m.staleAt hash (m.dir.entry (hash c.key)) c.key k = false) (n : ℕ) :
    ∃ c', c'.pc = .returned ∧ c'.dirCache = m.dir ∧ insertRun hash (n + 11) m c =
      (m.setSlot (posAddr (c.entry hash).pointer (hash c.key) 0) c.newSlot, c') := by
  let m' := m.setSlot (posAddr (c.entry hash).pointer (hash c.key) 0) c.newSlot
  let c₂ := (c.readBoth hash m).claim hash 0
  let c₃ : InsertCall := { c₂ with buf := c₂.buf.setSlot 0 (m.slot c₂.slotAddr), pc := .check0 }
  let c₄ : InsertCall := { c₃.readBoth hash m' with pc := .moveDir }
  let c₅ : InsertCall :=
    { c₄ with dirCache := m.dir
              buf := m'.buckets (m.dir.entry (hash c.key)).pointer (hash c.key)
              pc := .moveClaim 0 }
  let c₆ : InsertCall :=
    { c₅ with buf := c₅.buf.setSlot 0 (m'.slot (c₅.addr hash 0)), pc := .check0 }
  have hslot : ∀ q < 28, m'.slot (m.place hash c.key q) = .null :=
    fun q hq => (update_of_ne (hap q) _ _).trans (hnew q hq)
  have hown : m'.slot (c₅.addr hash 0) = c.newSlot := update_self ..
  have hfind := run_find_claim hpc (firstEmpty_of_null hold) (n + 9)
  have hclaim : insertRun hash (n + 9) m c₂ = insertRun hash (n + 8) m' c₃ := run_claim rfl rfl _
  have hstale : (c₃.readBoth hash m').check hash m' = .moveDir := if_pos (hst 0)
  have hempty : (m'.buckets (m.dir.entry (hash c.key)).pointer (hash c.key)).firstEmpty = some 0 :=
    firstEmpty_of_null (hslot 0 (by decide))
  have hmove : insertRun hash (n + 6) m' c₄ = insertRun hash (n + 3) m' c₅ :=
    run_move (m := m') (c := c₄) rfl hu hempty (n + 3)
  have hlost : insertRun hash (n + 3) m' c₅ = insertRun hash (n + 2) m' c₆ := by
    refine run_moveClaim rfl ?_ (n + 2)
    rw [hown]
    exact fun he => hne (he.trans (hslot 0 (by decide)))
  have hdone : (c₆.readBoth hash m').check hash m' = .returned := by
    refine InsertCall.check_eq_returned (hns _) rfl hfp fun q hq _ => ?_
    change matchesKey m'.block (hash c.key) c.key (m'.slot (m.place hash c.key q)) = false
    rw [hslot q hq]
    simp [matchesKey]
  refine ⟨{ c₆.readBoth hash m' with pc := .returned }, rfl, rfl, ?_⟩
  rw [hfind, hclaim, run_check m' rfl (n + 6), hstale, hmove, hlost, run_check m' rfl n, hdone]
  exact insertRun_halted rfl

/-! ### A run of three tasks -/

theorem Alone.slot_eq_null {x : Split} {alloc : ℕ → ℕ} {m₀ : Memory} {a : ℕ}
    (h₀ : Extendible hash m₀) (hx : Splittable x m₀) (h : Alone x hash alloc m₀ m r)
    (hpc : r.pc = .returned) (hnull : ∀ a, m₀.slot a = .null) (ha : m.Cell a) :
    m.slot a = .null := by
  by_contra hne
  obtain ⟨i, hi, b, j, hsl⟩ := ha
  obtain ⟨k, -, l, a₀, -, hs, -⟩ := h.exists_source h₀ hx hpc hi hsl hne
  exact hne (hs.symm.trans (hnull a₀))

theorem search_eq_none (he : d.entry (hash key) = m.dir.entry (hash key))
    (hns : ∀ k, m.staleAt hash (m.dir.entry (hash key)) key k = false)
    (hnull : ∀ q < 28, m.slot (m.place hash key q) = .null) :
    search hash m d key = none := by
  have hat : searchAt hash m (m.dir.entry (hash key)).pointer key = none := by
    cases hv : searchAt hash m (m.dir.entry (hash key)).pointer key with
    | none => rfl
    | some v =>
      obtain ⟨q, hq, b, hb, -⟩ := searchAt_eq_some hv
      exact absurd (hnull q hq) hb.1
  simp [search, he, hat, hns]

theorem searchPass_first
    (hs : m.slot (posAddr base (hash key) 0) = blockSlot hash key value pointer) (hp : pointer ≠ 0)
    (hb : m.block pointer = some ⟨key, value⟩) :
    ∃ e, searchPass hash m base key = some (e, strncpy value) := by
  have hread : readBlock key ⟨key, value⟩ = some (strncpy value) := readBlock_self ⟨key, value⟩
  have hfind : findKey m.block (hash key) key (fun q => m.slot (posAddr base (hash key) q)) =
      some 0 := by
    refine List.find?_range_eq_some.mpr ⟨?_, by decide, fun q hq => by omega⟩
    have hne : blockSlot hash key value pointer ≠ .null := fun he => hp (congrArg Slot.pointer he)
    change matchesKey m.block (hash key) key (m.slot (posAddr base (hash key) 0)) = true
    rw [hs]
    refine decide_eq_true ⟨hne, rfl, ?_⟩
    change ((m.block pointer).bind (readBlock key)).isSome = true
    rw [hb, bind_some, hread]
    rfl
  refine ⟨⟨key, bucketAddr base (bucketNo (hash key) 0), blockSlot hash key value pointer⟩, ?_⟩
  unfold searchPass
  dsimp only
  rw [hfind, bind_some, hs]
  change ((m.block pointer).bind (readBlock key)).map _ = _
  rw [hb, bind_some, hread]
  rfl

namespace Tasks
open Transition
open Snapshots (Callable)

section
variable {index : Bytes → ℕ} {fast : Bool} {client : ℕ → ℕ} {fuel t : ℕ} {s : State}
  (h : (system hash index fast client fuel).RunWith (Proper hash K) s) (hw : s.waiting = [])
include h hw

theorem runWith_resize {r' : Resizer} {table : ℕ} (hc : Callable s.mem r table)
    (hr : resizeRun hash fuel s.mem r table = (m, r')) (hpc : r'.pc = .returned) :
    (system hash index fast client fuel).RunWith (Proper hash K) (s.after t m r'.dirCache) := by
  refine .step (.resize t r table) h ⟨hw, trivial⟩ ((next_of_quiet hw).trans ?_)
  simp only [State.call, hr]
  exact if_pos ⟨hc, hpc⟩

theorem runWith_insert (ha : Proper hash K s (.insert t key value pointer))
    (hr : insertRun hash fuel (s.mem.writeBlock key value pointer) (insertCall hash (s.dirCache t)
      key value pointer) = (m, c)) (hpc : c.pc = .returned) :
    (system hash index fast client fuel).RunWith (Proper hash K) (s.after t m c.dirCache) := by
  refine .step (.insert t key value pointer) h ha ((next_of_quiet hw).trans ?_)
  simp only [State.call, hr]
  exact if_pos hpc

end

theorem runWith_search {index : Bytes → ℕ} {client : ℕ → ℕ} {fuel t : ℕ} {s : State}
    (locks : CacheLocks) {e : CacheEntry}
    (h : (system hash index true client fuel).RunWith (Proper hash K) s) (hw : s.waiting = [])
    (hkey : K key) (hmiss : (s.keyCache (client t)).find index locks key = none)
    (hs : (slowSearch hash s.mem (s.dirCache t) key).found = some (e, value)) :
    (system hash index true client fuel).RunWith (Proper hash K)
      { s.after t s.mem (slowSearch hash s.mem (s.dirCache t) key).dirCache with
        keyCache := update s.keyCache (client t)
          ((s.keyCache (client t)).add index locks e) } := by
  refine .step (.search t key locks) h ⟨hw, hkey⟩ ((next_of_quiet hw).trans ?_)
  simp only [State.call, searchCall_of_miss hmiss hs]

/-- The tables of `o` after the split: both empty, and the old directory leads to the old one. -/
structure Emptied (m : Memory) (r : Resizer) : Prop where
  extendible : Extendible hashFunction m
  fresh : ∀ p, m.block p = none
  entry : r.dirCache.entry (hashFunction movingKey) = m.dir.entry (hashFunction movingKey)
  old : m.slot (setup.place hashFunction movingKey 0) = .null
  new : ∀ q, m.slot (m.place hashFunction movingKey q) = .null
  apart : Apart (m.dir.entry (hashFunction movingKey)).pointer
    (setup.dir.entry (hashFunction movingKey)).pointer
  stale : ∀ k, m.staleAt hashFunction (setup.dir.entry (hashFunction movingKey)) movingKey k = true

theorem exists_emptied :
    ∃ n m r, (∀ k, resizeRun hashFunction (n + k) setup (resizeCall 611)
      (tablesSplit 10 611).newTable = (m, r)) ∧ r.pc = .returned ∧ Emptied m r := by
  have hx : Splittable (tablesSplit 10 611) setup := splittable_tables rfl (by decide) (by decide)
  have hsetup := extendible_setup hashFunction
  obtain ⟨m, r, hruns, hpc, hal⟩ := (hsetup.alone hx (starts_tables 10 611)).exists_returned
    hx.apart (hx.idle hsetup) (by decide)
  obtain ⟨n, hn⟩ := Machine.exists_run_eq hruns
  have hm := hal.extendible hsetup hx hpc
  have hpast := hal.past hpc hsetup hx hsetup.past
  have hnull : ∀ {a}, m.Cell a → m.slot a = .null :=
    hal.slot_eq_null hsetup hx hpc fun _ => rfl
  have hap : Apart (m.dir.entry (hashFunction movingKey)).pointer
      (setup.dir.entry (hashFunction movingKey)).pointer := by
    rw [hal.entry_of_member hpc (by unfold Split.Member; decide +kernel)]
    decide +kernel
  refine ⟨n, m, r, fun k => ?_, hpc, hm, fun p => ?_, ?_, ?_, fun q => ?_, hap, ?_⟩
  · exact Machine.run_add_of_halted hn (by simp [resizeStep, hpc]) k
  · rw [(hal.exact hpc).block]
    rfl
  · obtain ⟨hdepth, hentries⟩ := hal.cache_eq hpc
    rw [Directory.entry, Directory.entry, Directory.index, Directory.index, hdepth]
    exact hentries _ (Nat.mod_lt _ (Nat.two_pow_pos _))
  · obtain ⟨i, hi, hp⟩ := exists_table hashFunction hpast movingKey
    rw [Memory.place, ← hp]
    exact hnull ⟨i, hi, _, _, isSlot_posAddr _ _ 0⟩
  · exact hnull (cell_posAddr hashFunction m movingKey q)
  · rcases hm.past_cases hpast movingKey with ⟨hp, -⟩ | ⟨-, -, -, -, hst⟩
    · rw [hp] at hap
      have hsl := isSlot_posAddr (m.dir.entry (hashFunction movingKey)).pointer
        (hashFunction movingKey) 0
      exact (hap.ne hsl hsl).elim
    · exact hst

/-- Task 0 splits the subtable of `o`, task 1 inserts `o` with the old directory, and task 2, which
has it too, finds what task 0 does not. -/
theorem not_agrees_movingKey :
    ∃ fuel s, (system hashFunction List.length true (fun _ => 0) fuel).RunWith
        (Proper hashFunction (· = movingKey)) s ∧ s.waiting = [] ∧
      (fastSearch hashFunction List.length true s.mem (s.keyCache 0) ⟨true, true, true⟩
        movingKey).1 = some [97] ∧
      (slowSearch hashFunction s.mem (s.dirCache 0) movingKey).found.map Prod.snd = none := by
  obtain ⟨n, m, r, hrun, hpc, h⟩ := exists_emptied
  have hrun := hrun 11
  obtain ⟨fuel, hfuel⟩ : ∃ fuel, fuel = n + 11 := ⟨_, rfl⟩
  rw [← hfuel] at hrun
  have hcall : Callable setup (resizeCall 611) (tablesSplit 10 611).newTable := by
    have hx : Splittable (tablesSplit 10 611) setup := splittable_tables rfl (by decide) (by decide)
    exact ⟨rfl, rfl, by decide, hx.grows, hx.fresh⟩
  have hstart : (system hashFunction List.length true (fun _ => 0) fuel).RunWith
      (Proper hashFunction (· = movingKey)) startState :=
    .start ⟨rfl, fun _ => rfl, fun _ _ => rfl, rfl⟩
  have hs₁ := runWith_resize (t := 0) hstart rfl hcall hrun hpc
  -- task 1 leaves its block in the old table
  let m₁ := m.writeBlock movingKey [97] 64
  have hapart : ∀ q, m.place hashFunction movingKey q ≠ setup.place hashFunction movingKey 0 := by
    intro q he
    have hsl := isSlot_posAddr (setup.dir.entry (hashFunction movingKey)).pointer
      (hashFunction movingKey) 0
    unfold Memory.place at he
    exact h.apart.ne (isSlot_posAddr _ _ q) (he.symm ▸ hsl)
  obtain ⟨c, hret, hdir, hins⟩ := insertRun_stale (m := m₁)
    (c := insertCall hashFunction setup.dir movingKey [97] 64) rfl rfl
    (by decide +kernel) h.extendible.unlocked h.old (fun q _ => h.new q) hapart h.stale
    (h.extendible.not_stale movingKey) n
  rw [← hfuel] at hins
  have habs : search hashFunction m m.dir movingKey = none :=
    search_eq_none rfl (h.extendible.not_stale movingKey) fun q _ => h.new q
  have hs₂ := runWith_insert (t := 1) hs₁ rfl ⟨rfl, rfl, ⟨by decide, h.fresh 64⟩, habs⟩ hins hret
  -- task 2 finds it there
  let m₂ := m₁.setSlot (setup.place hashFunction movingKey 0)
    (blockSlot hashFunction movingKey [97] 64)
  have hslot : m₂.slot (setup.place hashFunction movingKey 0) =
      blockSlot hashFunction movingKey [97] 64 := Memory.slot_setSlot ..
  have hblock : m₁.block 64 = some ⟨movingKey, [97]⟩ := Memory.block_writeBlock ..
  obtain ⟨e, hpass⟩ := searchPass_first hslot (by decide) hblock
  rw [show strncpy [97] = [97] by decide] at hpass
  have hslow : (slowSearch hashFunction m₂ setup.dir movingKey).found = some (e, [97]) := by
    simp only [slowSearch, hpass]
  have hs₃ := runWith_search (t := 2) ⟨true, true, true⟩ hs₂ rfl rfl rfl hslow
  refine ⟨fuel, _, hs₃, rfl, ?_, ?_⟩
  · simp only [State.after, update_self]
    exact fastSearch_add rfl rfl hpass
  · rw [slowSearch_found]
    refine search_eq_none h.entry (h.extendible.not_stale movingKey) fun q hq => ?_
    exact (update_of_ne (hapart q) _ _).trans (h.new q)

end Tasks

end Fusa.Table

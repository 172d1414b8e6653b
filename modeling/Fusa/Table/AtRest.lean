import Fusa.Table.Slots
import Fusa.Table.SplitHeaders

/-! A whole `resize` of one subtable, and the subtable before and after it. -/
namespace Fusa.Table
open Function Nat

/-- The state of a `resize` and of the memory it works on, which stores `map`. -/
structure Splitting (x : Split) (hash : Bytes → Hashes) (K : Bytes → Prop) (alloc : ℕ → ℕ)
    (m : Memory) (r : Resizer) (map : Bytes → Option Bytes) : Prop where
  control : x.Control alloc m.dir r
  headers : Headers x m.header r
  slots : Slots x hash K m r.pc.progress r.oldSlot r.newSlot map

variable {x : Split} {hash : Bytes → Hashes} {K : Bytes → Prop} {alloc : ℕ → ℕ}
  {m m' : Memory} {r r' : Resizer} {map : Bytes → Option Bytes}

section
variable (h : Splitting x hash K alloc m r map)
  (hn : resizeStep hash alloc m r = some (m', r')) (hap : Apart x.oldTable x.newTable)
include h hn hap

omit hn hap in
theorem Splitting.skips_iff (hK : PrefixFree K) {i j n : ℕ} {l : List (ℕ × ℕ)}
    (hpc : r.pc = .copy i j n l) :
    Skips hash m.block r i j ↔ ¬ x.Moving hash m.block (r.oldSlot i j) := by
  have hd := (h.control.planned (hpc ▸ rfl)).depth
  have hslots := h.slots
  rw [hpc] at hslots
  rw [Skips, hd, h.control.newSuffix_eq hd]
  exact (hslots.snapshot trivial).movesTo_iff hK i j

omit hn in
theorem Splitting.slots_move (hK : PrefixFree K) (hm : r.pc.moving) (hs : MoveStep hash m r m' r') :
    Slots x hash K m' r'.pc.progress r'.oldSlot r'.newSlot map := by
  have hlate := ResizePc.early_of_moving hm
  have hptr := h.control.newEntry_pointer hlate
  have hslots := h.slots
  cases hs with
  | enter hpc hi =>
    rw [hpc] at hslots
    exact Slots.begin (hslots.same rfl rfl) hi
  | pass hpc hi hs => exact absurd hs (h.headers.not_pass h.control hpc hi).2
  | leave hpc hi =>
    rw [hpc] at hslots
    obtain rfl := le_antisymm (hslots.snapshot trivial).ok (not_lt.mp hi)
    exact hslots
  | skip hpc hj hs =>
    have hmove := (h.skips_iff hK hpc).mp hs
    rw [hpc] at hslots
    exact hslots.skip hj hmove
  | take hpc hj hs _ _ ha =>
    have hmove := not_not.mp ((h.skips_iff hK hpc).not.mp hs)
    rw [hpc] at hslots
    rw [hptr] at ha ⊢
    exact hslots.copySlot hap hj hmove ha
  | @taken i j n l hpc hj _ _ ha =>
    rw [hpc] at hslots
    rw [hptr] at ha ⊢
    have hu : ¬ (Progress.copy i j n l).unused i n := fun hu =>
      ha (hslots.unused i n _ ⟨(hslots.snapshot trivial).ok.1, hslots.room hj, rfl⟩ hu)
    exact hslots.probe hu _
  | @used i j n l hpc hj _ _ hb =>
    rw [hpc] at hslots
    have hu : ¬ (Progress.copy i j n l).unused i n :=
      fun hu => hb ((hslots.snapshot trivial).buffer i n hu)
    have hp := hslots.probe hu (r.newSlot i n)
    rwa [update_eq_self, update_eq_self] at hp
  | noRoom hpc hj _ hfull =>
    rw [hpc] at hslots
    exact absurd (hslots.room hj) hfull
  | copied hpc hj =>
    rw [hpc] at hslots
    obtain rfl := le_antisymm (hslots.snapshot trivial).ok.2.1 (not_lt.mp hj)
    exact hslots.copyDone
  | cleared hpc =>
    rw [hpc] at hslots
    exact hslots.clearDone
  | clear hpc =>
    rw [hpc] at hslots
    obtain ⟨ha, hne, hclear⟩ := hslots.clearSlot hap
    rw [h.control.oldEntry_pointer hlate, casSlot_of_eq ha, ha, if_neg hne]
    simp only [Resizer.setOldSlot, update_eq_self]
    exact hclear
  | undo hpc =>
    rw [hpc] at hslots
    exact (hslots.snapshot trivial).ok.elim

theorem Splitting.slots_step (hK : PrefixFree K) :
    Slots x hash K m' r'.pc.progress r'.oldSlot r'.newSlot map := by
  have hslots := h.slots
  cases resizeStep_kind hn with
  | lockNew hpc hd =>
    obtain ⟨hpc', -⟩ := h.control.step_lockNew hn hpc
    obtain ⟨d, rfl⟩ := hd
    rw [hpc] at hslots
    rw [hpc']
    have hs : Slots x hash K { m with dir := d } .before r.oldSlot r.newSlot map :=
      hslots.same rfl rfl
    exact hs.forget id
  | readOld hpc =>
    have hptr := h.control.oldEntry_pointer (hpc ▸ rfl)
    have hat := h.control.at_pc
    rw [hpc] at hat hslots
    simp only [resizeStep, hpc, hptr] at hn
    cases hn
    rw [hat.1]
    exact hslots.take
  | writeNew hpc =>
    have hptr := h.control.newEntry_pointer (hpc ▸ rfl)
    rw [hpc] at hslots
    simp only [resizeStep, hpc, hptr] at hn
    cases hn
    exact hslots.writeTable hap
  | move hm hs => exact h.slots_move hap hK hm hs
  | unlockNew hpc hon =>
    obtain ⟨hpc', -⟩ := h.control.step_unlockNew hn hpc
    obtain ⟨⟨d, rfl⟩, htab, -⟩ := hon
    rw [hpc] at hslots
    have hs : Slots x hash K { m with dir := d } (.bucket kTotalBuckets) r.oldSlot r.newSlot map :=
      hslots.same rfl rfl
    rw [hpc', htab.oldSlot, htab.newSlot]
    exact hs.finish
  | dir hne hon =>
    obtain ⟨⟨d, rfl⟩, htab, hprog⟩ := hon
    rw [(hprog hne).1, htab.oldSlot, htab.newSlot]
    exact hslots.same rfl rfl

omit hn hap in
/-- `move_bucket` never finds a slot empty that it is to clear. -/
theorem Splitting.pc_ne_undo (i n : ℕ) (l : List (ℕ × ℕ)) : r.pc ≠ .undo i n l := by
  intro hpc
  have hslots := h.slots
  rw [hpc] at hslots
  exact (hslots.snapshot trivial).ok.elim

theorem Splitting.step (hK : PrefixFree K) : Splitting x hash K alloc m' r' map := by
  have hslots := h.slots
  have hslots' := h.slots_step hn hap hK
  refine ⟨h.control.step hn fun i j n l hpc hj => ?_,
    h.headers.step h.control hn hap (fun i hpc => ?_) h.pc_ne_undo fun i n l hpc => ?_, hslots'⟩
  · rw [hpc] at hslots
    exact hslots.room hj
  · rw [hpc] at hslots
    exact (hslots.snapshot trivial).ok
  · rw [hpc] at hslots'
    exact (hslots'.snapshot trivial).ok.elim

/-- `resize` changes a slot of the old table only to clear it, when its key moves. -/
theorem Splitting.oldSlot_step {i j a : ℕ} (ha : IsSlot x.oldTable i j a) :
    m'.slot a = m.slot a ∨ (x.Moving hash m.block (m.slot a) ∧ m'.slot a = .null) := by
  have hslots := h.slots
  cases resizeStep_kind hn with
  | dir _ hon | unlockNew _ hon =>
    obtain ⟨d, rfl⟩ := hon.memory
    exact .inl rfl
  | lockNew _ hd =>
    obtain ⟨d, rfl⟩ := hd
    exact .inl rfl
  | readOld _ hm => exact .inl (by rw [hm])
  | writeNew hpc =>
    simp only [resizeStep, hpc, h.control.newEntry_pointer (hpc ▸ rfl)] at hn
    cases hn
    refine .inl (if_neg ?_)
    have := ha.bounds
    unfold Apart at hap
    omega
  | move hm hs =>
    have hlate := ResizePc.early_of_moving hm
    cases hs with
    | enter | pass | leave | skip | taken | used | noRoom | copied | cleared => exact .inl rfl
    | take hpc _ _ hroom =>
      rw [hpc] at hslots
      rw [h.control.newEntry_pointer hlate]
      refine .inl (update_of_ne (fun hne => ?_) _ _)
      exact hap.ne ha ⟨(hslots.snapshot trivial).ok.1, hroom, hne⟩
    | @clear k j' n l hpc =>
      rw [hpc] at hslots
      obtain ⟨hs, -, -⟩ := hslots.clearSlot hap
      have hmove := ((hslots.snapshot trivial).ok.2.2 (j', n) (by simp)).2
      rw [h.control.oldEntry_pointer hlate, casSlot_of_eq hs]
      by_cases hak : a = slotAddr x.oldTable k j'
      · subst hak
        exact .inr ⟨hs ▸ hmove, update_self ..⟩
      · exact .inl (update_of_ne hak _ _)
    | undo hpc =>
      rw [hpc] at hslots
      exact (hslots.snapshot trivial).ok.elim

omit hap in
theorem Splitting.progress_ne_before (hp : r.pc.progress ≠ .before) : r'.pc.progress ≠ .before := by
  cases resizeStep_kind hn with
  | lockNew hpc | readOld hpc => exact absurd (hpc ▸ rfl) hp
  | writeNew hpc =>
    simp only [resizeStep, hpc] at hn
    cases hn
    simp [ResizePc.progress]
  | move _ hs =>
    cases hs with
    | clear =>
      split <;> simp [ResizePc.progress]
    | _ => simp [ResizePc.progress]
  | unlockNew hpc => simp [(h.control.step_unlockNew hn hpc).1, ResizePc.progress]
  | dir hne hon => exact (hon.progress hne).1 ▸ hp

end

/-- A table at rest, whose stored keys are in `K`, and the fresh memory for a new subtable. -/
structure AtRest (x : Split) (hash : Bytes → Hashes) (K : Bytes → Prop) (m : Memory) : Prop where
  wellFormed : WellFormed hash m
  dir : m.dir = x.dir
  idx_lt : x.idx < 2 ^ x.dir.globalDepth
  depth_le : x.depth ≤ x.dir.globalDepth
  entries : ∀ i < 2 ^ x.dir.globalDepth, i % 2 ^ x.depth = x.oldSuffix →
    x.dir.subtables i = ⟨0, x.depth, x.oldTable⟩
  header : ∀ b < kTotalBuckets,
    m.header (bucketAddr x.oldTable b) = ⟨x.depth, x.oldSuffix⟩
  apart : ∀ i < 2 ^ x.dir.globalDepth, i % 2 ^ x.depth ≠ x.oldSuffix →
    Apart (x.dir.subtables i).pointer x.oldTable
  fresh : ∀ i < 2 ^ x.dir.globalDepth, Apart (x.dir.subtables i).pointer x.newTable
  keys : ∀ a b, m.Holds a b → K b.key
  unique : ∀ {a a' b b'}, m.Holds a b → m.Holds a' b' → b.key = b'.key → a = a'

/-- A call of `resize` that is about to split the subtable. -/
structure Split.Starts (x : Split) (alloc : ℕ → ℕ) (r : Resizer) : Prop where
  pc : r.pc = .start
  idx : r.subtableIdx = x.idx
  overflow : r.resizeSuffix = none
  table : alloc r.allocs = x.newTable

theorem AtRest.apart_new (h : AtRest x hash K m) : Apart x.oldTable x.newTable :=
  h.fresh x.idx h.idx_lt

variable {a i j : ℕ} {b : Block}

section
variable (h : AtRest x hash K m)
include h

theorem AtRest.holds (hb : m.Holds a b) :
    ∃ n < 2 ^ x.dir.globalDepth, n = x.dir.index (hash b.key) ∧
      (m.slot a).fp = getFingerprint (hash b.key).h0 ∧
      ∃ k < 4, ∃ j, IsSlot (x.dir.subtables n).pointer (bucketNo (hash b.key) k) j a := by
  obtain ⟨b', hb', hfp, q, hq, ha⟩ := h.wellFormed.stored a hb.1
  obtain rfl := hb.unique ⟨hb.1, hb'⟩
  refine ⟨_, Nat.mod_lt _ (Nat.two_pow_pos _), rfl, hfp, q / kAssociatedWays, ?_,
    q % kAssociatedWays, ?_⟩
  · simp only [kAssociatedWays]
    omega
  · rw [ha, h.dir]
    exact isSlot_posAddr _ _ q

theorem AtRest.member_iff (key : Bytes) :
    x.dir.index (hash key) % 2 ^ x.depth = x.oldSuffix ↔ x.Member hash key := by
  rw [Directory.index, mod_mod_of_dvd _ (pow_dvd_pow 2 h.depth_le), Split.Member]

theorem AtRest.not_holds_new (ha : IsSlot x.newTable i j a) : ¬ m.Holds a b := by
  intro hb
  obtain ⟨n, hn, -, -, k, -, j', hsl⟩ := h.holds hb
  exact (h.fresh n hn).ne hsl ha

theorem AtRest.isSlot_old_iff (hb : m.Holds a b) :
    (∃ i j, IsSlot x.oldTable i j a) ↔ x.Member hash b.key := by
  obtain ⟨n, hn, rfl, -, k, -, j', hsl⟩ := h.holds hb
  rw [← h.member_iff]
  constructor
  · rintro ⟨i, j, ha⟩
    by_contra hne
    exact (h.apart _ hn hne).ne hsl ha
  · intro hmem
    rw [h.entries _ hn hmem] at hsl
    exact ⟨_, _, hsl⟩

theorem AtRest.slots (old new : ℕ → ℕ → Slot) : ∃ map, Slots x hash K m .before old new map := by
  have hcells : ∃ map, CellMap.Represents Block.key Block.value (x.Counts hash m .before) map :=
    CellMap.exists_represents (fun hb hb' => hb.1.unique hb'.1)
      fun hb hb' hk => h.unique hb.1 hb'.1 hk
  obtain ⟨map, hmap⟩ := hcells
  refine ⟨map, fun a ha => ?_, fun i j a b hsl hb => ?_, fun i j a b hsl hb => ?_,
    fun a b hb hmem => ?_, hmap, fun i n a hsl _ => ?_, fun ha => ha.elim⟩
  · obtain ⟨b, hb, -⟩ := h.wellFormed.stored a ha
    exact ⟨b, hb, h.keys a b ⟨ha, hb⟩⟩
  · have hsl : IsSlot x.oldTable i j a :=
      hsl.resolve_right fun hnew => h.not_holds_new hnew hb
    have hmem := (h.isSlot_old_iff hb).mp ⟨i, j, hsl⟩
    obtain ⟨n, hn, rfl, hfp, k, hk, j', hsl'⟩ := h.holds hb
    rw [h.entries _ hn ((h.member_iff _).mpr hmem)] at hsl'
    exact ⟨⟨k, hk, (hsl'.inj hsl).1⟩, hfp, hmem⟩
  · exact absurd hb (h.not_holds_new hsl)
  · obtain ⟨i, j, hsl⟩ := (h.isSlot_old_iff hb).mpr hmem
    exact ⟨i, j, .inl hsl⟩
  · by_contra hne
    obtain ⟨b, hb, -⟩ := h.wellFormed.stored a hne
    exact h.not_holds_new hsl ⟨hne, hb⟩

theorem AtRest.splitting (hr : x.Starts alloc r) : ∃ map, Splitting x hash K alloc m r map := by
  obtain ⟨map, hmap⟩ := h.slots r.oldSlot r.newSlot
  have hl : x.Listed m.dir m.dir.globalDepth (fun _ => false) fun _ => false := by
    rw [h.dir]
    exact ⟨rfl, h.dir ▸ h.wellFormed.unlocked, h.entries⟩
  refine ⟨map, .of_sizing hr.idx hr.overflow ?_ hr.table ?_, ⟨?_, fun ha => ?_, fun hw => ?_⟩, ?_⟩
  · rw [hr.pc]
    rfl
  · rw [hr.pc]
    exact ⟨h.dir ▸ h.depth_le, h.dir ▸ h.idx_lt, hl⟩
  · simpa [hr.pc, ResizePc.progress, Progress.marked] using h.header
  · rw [hr.pc] at ha
    exact ha.elim
  · rw [hr.pc] at hw
    cases hw
  · rwa [hr.pc]

end

theorem Splitting.search_eq {key : Bytes} (hK : PrefixFree K)
    (h : Splitting x hash K alloc m r map) (hpc : r.pc = .returned) (hkey : K key)
    (hmem : x.Member hash key) : search hash m m.dir key = (map key).map strncpy := by
  have hslots := h.slots
  rw [hpc] at hslots
  have hp := h.control.planned (hpc ▸ rfl)
  have he := (h.control.entry_eq hp.dir.unlocked hmem).2
  rw [hpc, if_pos (by rfl)] at he
  rw [search_eq_searchAt, he]
  exact hslots.searchAt_eq hK hkey

/-! ### The tables of `Setup` -/

def setupSplit (idx : ℕ) : Split := ⟨setup.dir, idx, bucketBytes * kTotalBuckets * 1025⟩

theorem apart_setup (h : i ≠ j) :
    Apart (bucketBytes * kTotalBuckets * i) (bucketBytes * kTotalBuckets * j) := by
  rcases lt_or_gt_of_ne h with hlt | hlt
  · exact .inl (by rw [← mul_succ]; exact mul_le_mul_left _ hlt)
  · exact .inr (by rw [← mul_succ]; exact mul_le_mul_left _ hlt)

theorem atRest_setup {idx : ℕ} (hidx : idx < 1024) (hw : WellFormed hash m)
    (hd : m.dir = setup.dir) (hh : m.header = setup.header) (hk : ∀ a b, m.Holds a b → K b.key)
    (hu : ∀ {a a' b b'}, m.Holds a b → m.Holds a' b' → b.key = b'.key → a = a') :
    AtRest (setupSplit idx) hash K m := by
  have hG : (setupSplit idx).dir.globalDepth = 10 := rfl
  have hD : (setupSplit idx).depth = 10 := rfl
  have hlt : (setupSplit idx).idx < 2 ^ 10 := hidx
  have hmod : (setupSplit idx).oldSuffix = idx := by
    rw [Split.oldSuffix, hD]
    exact mod_eq_of_lt hlt
  refine ⟨hw, hd, by rw [hG]; exact hlt, by rw [hG, hD], fun i hi hc => ?_, fun b hb => ?_,
    fun i hi hc => ?_, fun i hi => ?_, hk, hu⟩
  · rw [hmod, hD] at hc
    rw [hG] at hi
    obtain rfl : i = idx := (mod_eq_of_lt hi).symm.trans hc
    have hlock : ((setupSplit i).dir.subtables i).lock = 0 := rfl
    rw [Split.depth, Split.oldTable, show (setupSplit i).idx = i from rfl, ← hlock]
  · rw [hmod, hh]
    exact header_setup hb idx
  · rw [hmod, hD] at hc
    refine apart_setup fun hi' => hc ?_
    have : i = idx := Nat.succ.inj hi'
    omega
  · rw [hG] at hi
    exact apart_setup (by omega)

end Fusa.Table

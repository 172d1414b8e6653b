import Fusa.Table.SplitDirectory

/-! Every step of `resize` leaves the directory as its next operation expects it. -/
namespace Fusa.Table
open Function ResizePc Nat

variable {x : Split} {hash : Bytes → Hashes} {alloc : ℕ → ℕ} {D : Directory} {m m' : Memory}
  {r r' : Resizer} {pc pc' : ResizePc}

theorem ResizePc.sizing_of_early (h : pc.early = false) : pc.sizing = false := by
  cases pc <;> simp_all [early, sizing]

theorem ResizePc.early_of_moving (h : pc.moving) : pc.early = false := by
  cases pc <;> first | rfl | cases h

theorem Split.early_of_fixed {i : ℕ} (h : x.fixed pc i) : pc.early = false := by
  cases pc <;> simp_all [fixed, early, sizing]

theorem Split.Planned.at_pc (h : x.Planned D r) (hpc : r.pc = pc) :
    r.depth = x.depth ∧ x.depth ≤ r.globalDepth ∧
      x.Listed D r.globalDepth (x.locks pc) (x.fixed pc) ∧
      x.Listed r.dirCache r.globalDepth (x.locks pc) (x.cached pc) :=
  hpc ▸ ⟨h.depth, h.depth_le, h.dir, h.cache⟩

/-- Entry `i` is all that changes between the directories at `pc` and at `pc'`. -/
structure Split.Sets (x : Split) (pc pc' : ResizePc) (i : ℕ) (e : SubTableEntry) : Prop where
  entry : e = x.entry (x.locks pc' i) (x.fixed pc' i) i
  others : ∀ k, k % 2 ^ x.depth = x.oldSuffix → k ≠ i →
    x.locks pc' k = x.locks pc k ∧ x.fixed pc' k = x.fixed pc k

theorem Split.Sets.listed {G i : ℕ} {e : SubTableEntry} (h : x.Sets pc pc' i e)
    (hD : x.Listed D G (x.locks pc) (x.fixed pc)) :
    x.Listed (D.setEntry i e) G (x.locks pc') (x.fixed pc') :=
  hD.setEntry h.entry fun k _ => h.others k

namespace Split.Control

section
variable (hidx : r.subtableIdx = x.idx) (hover : r.resizeSuffix = none)
include hidx hover

theorem of_sizing (hpc : r.pc.sizing) (htab : alloc r.allocs = x.newTable)
    (hat : x.At D r r.pc) : x.Control alloc D r := by
  have hearly : r.pc.early := by
    by_contra hf
    rw [sizing_of_early (Bool.eq_false_of_not_eq_true hf)] at hpc
    cases hpc
  exact ⟨hidx, hover, fun _ => htab, fun hf => by simp [hearly] at hf,
    fun hf => by simp [hpc] at hf, hat⟩

theorem of_early (hpc : r.pc.early) (htab : alloc r.allocs = x.newTable)
    (hdeep : x.newSuffix < 2 ^ r.globalDepth) (hat : x.At D r r.pc) : x.Control alloc D r :=
  ⟨hidx, hover, fun _ => htab, fun hf => by simp [hpc] at hf, fun _ => hdeep, hat⟩

theorem of_late (hpc : r.pc.early = false) (hexit : r.exit = .finish)
    (hfix : r.fixDepth = x.depth) (hdeep : x.newSuffix < 2 ^ r.globalDepth)
    (hat : x.At D r r.pc) : x.Control alloc D r :=
  ⟨hidx, hover, fun hf => by simp [hpc] at hf, fun _ => ⟨hexit, hfix⟩, fun _ => hdeep, hat⟩

end

section
variable (h : x.Control alloc D r)
include h

theorem oldSuffix_eq (hd : r.depth = x.depth) : r.oldSuffix = x.oldSuffix := by
  rw [Resizer.oldSuffix, h.idx, hd, oldSuffix]

theorem newSuffix_eq (hd : r.depth = x.depth) : r.newSuffix = x.newSuffix := by
  rw [Resizer.newSuffix, h.oldSuffix_eq hd, hd, newSuffix]

theorem oldSuffix_lt_pow (hp : r.pc.sizing = false) : x.oldSuffix < 2 ^ r.globalDepth :=
  (le_add_right _ _).trans_lt (h.deep hp)

/-- Once both entries are locked, `resize` no longer changes its view of the depths. -/
theorem planned (hl : r.pc.early = false) : x.Planned D r := by
  have hat := h.at_pc
  cases hpc : r.pc <;> rw [hpc] at hat hl
  case readOld => exact hat.2
  case fixOld | fixNew => exact hat.2.2
  all_goals first | exact hat | cases hl

theorem early_at (hpc : r.pc = pc) (he : pc.early) : alloc r.allocs = x.newTable ∧ x.At D r pc :=
  hpc ▸ ⟨h.table (hpc ▸ he), h.at_pc⟩

theorem late_at (hpc : r.pc = pc) (hl : pc.early = false) :
    r.exit = .finish ∧ r.fixDepth = x.depth ∧ r.depth = x.depth ∧ x.depth ≤ r.globalDepth ∧
      x.Listed D r.globalDepth (x.locks pc) (x.fixed pc) ∧
      x.Listed r.dirCache r.globalDepth (x.locks pc) (x.cached pc) := by
  have hlate : r.pc.early = false := hpc ▸ hl
  obtain ⟨he, hf⟩ := h.finish hlate
  exact ⟨he, hf, (h.planned hlate).at_pc hpc⟩

theorem goLate {D' : Directory} (hpc : r.pc = pc) (hl : pc.early = false) (hat : x.At D' r' r'.pc)
    (hfix : r'.fixDepth = r.fixDepth := by rfl) (hidx : r'.subtableIdx = r.subtableIdx := by rfl)
    (hover : r'.resizeSuffix = r.resizeSuffix := by rfl) (hexit : r'.exit = r.exit := by rfl)
    (hg : r'.globalDepth = r.globalDepth := by rfl) (hl' : r'.pc.early = false := by rfl) :
    x.Control alloc D' r' := by
  obtain ⟨he, hf, -⟩ := h.late_at hpc hl
  refine .of_late (hidx.trans h.idx) (hover.trans h.overflow) hl' (hexit.trans he) (hfix.trans hf)
    ?_ hat
  rw [hg]
  exact h.deep (hpc ▸ sizing_of_early hl)

theorem oldEntry_eq (hpc : r.pc = pc) (hl : pc.early = false) :
    r.oldEntry = x.entry (x.locks pc x.oldSuffix) (x.cached pc x.oldSuffix) x.oldSuffix := by
  obtain ⟨-, -, hd, -, -, hcache⟩ := h.late_at hpc hl
  rw [Resizer.oldEntry, h.oldSuffix_eq hd]
  exact hcache.entries _ (h.oldSuffix_lt_pow (hpc ▸ sizing_of_early hl)) x.oldSuffix_class

theorem newEntry_eq (hpc : r.pc = pc) (hl : pc.early = false) :
    r.newEntry = x.entry (x.locks pc x.newSuffix) (x.cached pc x.newSuffix) x.newSuffix := by
  obtain ⟨-, -, hd, -, -, hcache⟩ := h.late_at hpc hl
  rw [Resizer.newEntry, h.newSuffix_eq hd]
  exact hcache.entries _ (h.deep (hpc ▸ sizing_of_early hl)) x.newSuffix_class

theorem oldEntry_pointer (hl : r.pc.early = false) : r.oldEntry.pointer = x.oldTable := by
  rw [h.oldEntry_eq rfl hl]
  simp [entry, tableOf_of_old x.oldSuffix_mod]

theorem newEntry_pointer (hl : r.pc.early = false) : r.newEntry.pointer = x.newTable := by
  have hcached : x.cached r.pc x.newSuffix = true := by
    have hat := h.at_pc
    cases hpc : r.pc <;> rw [hpc] at hl hat
    case fixNew => simp [cached, fixed, hat.2.1]
    all_goals simp_all [cached, fixed, early, sizing]
  rw [h.newEntry_eq rfl hl, hcached]
  simp [entry, tableOf_of_new x.newSuffix_mod]

end

section
variable (h : x.Control alloc m.dir r) (hn : resizeStep hash alloc m r = some (m', r'))
include h hn

theorem step_start (hpc : r.pc = .start) : x.Control alloc m'.dir r' := by
  obtain ⟨htab, hle, hlt, hl⟩ := h.early_at hpc rfl
  simp only [resizeStep, hpc, hl.unlocked, Bool.false_eq_true, if_false] at hn
  cases hn
  have hd : (m.dir.subtables r.subtableIdx).localDepth = x.depth := by
    rw [h.idx, hl.entries x.idx hlt rfl]
    rfl
  exact .of_sizing h.idx h.overflow rfl htab ⟨hd, hle, hl, hl⟩

theorem step_size (hpc : r.pc = .size) : x.Control alloc m'.dir r' := by
  obtain ⟨htab, hat⟩ := h.early_at hpc rfl
  obtain ⟨hd, hle, hdir, hcache⟩ := Planned.at_pc hat hpc
  simp only [resizeStep, hpc] at hn
  cases hn
  by_cases hg : r.newSuffix ≥ 2 ^ r.globalDepth
  · rw [if_pos hg]
    exact .of_sizing h.idx h.overflow rfl htab ⟨rfl, hd, hle, hdir, hcache⟩
  · rw [if_neg hg]
    rw [h.newSuffix_eq hd, ge_iff_le, not_le] at hg
    exact .of_early h.idx h.overflow rfl htab hg ⟨hd, hle, hdir, hcache⟩

theorem step_grow {g : ℕ} (hpc : r.pc = .growCas g ∨ r.pc = .growRead g ∨ r.pc = .growWrite g) :
    x.Control alloc m'.dir r' := by
  rcases hpc with hpc | hpc | hpc
  · obtain ⟨htab, rfl, hat⟩ := h.early_at hpc rfl
    obtain ⟨hd, hle, hdir, hcache⟩ := hat.at_pc hpc
    simp only [resizeStep, hpc, hdir.globalDepth, hdir.unlocked, if_true] at hn
    split at hn
    · cases hn
      exact .of_sizing h.idx h.overflow rfl htab ⟨rfl, hd, hle, rfl, rfl, hdir.entries⟩
    · cases hn
  · obtain ⟨htab, hbuf, hd, hle, hg, hlock, he⟩ := h.early_at hpc rfl
    simp only [resizeStep, hpc, hbuf, if_true] at hn
    cases hn
    exact .of_sizing h.idx h.overflow rfl htab ⟨⟨hd, hle, hg, hlock, he⟩, he.grow hle⟩
  · obtain ⟨htab, ⟨hd, hle, hg, hlock, he⟩, hcache⟩ := h.early_at hpc rfl
    simp only [resizeStep, hpc] at hn
    cases hn
    refine .of_sizing h.idx h.overflow rfl htab ⟨hd, ?_, hlock, ?_, ?_⟩
    · rw [hcache.globalDepth]
      exact hle.trans (le_succ _)
    · rw [hcache.globalDepth]
      intro i hi hc
      dsimp only
      split
      · exact hcache.entries i hi hc
      · exact he i (by omega) hc
    · rwa [hcache.globalDepth]

theorem step_publish (hpc : r.pc = .growPublish) : x.Control alloc m'.dir r' := by
  obtain ⟨htab, hd, hle, -, he, hcache⟩ := h.early_at hpc rfl
  simp only [resizeStep, hpc] at hn
  cases hn
  exact .of_sizing h.idx h.overflow rfl htab ⟨hd, hle, ⟨rfl, hcache.unlocked, he⟩, hcache⟩

theorem step_lockOld (hpc : r.pc = .lockOld) : r'.pc = .lockNew ∧ x.Control alloc m'.dir r' := by
  obtain ⟨htab, hat⟩ := h.early_at hpc rfl
  obtain ⟨hd, hle, hdir, hcache⟩ := Planned.at_pc hat hpc
  have hdeep := h.deep (hpc ▸ rfl)
  have hlt := h.oldSuffix_lt_pow (hpc ▸ rfl)
  have hm := hdir.entries _ hlt x.oldSuffix_class
  have hc := hcache.entries _ hlt x.oldSuffix_class
  simp only [resizeStep, hpc, h.oldSuffix_eq hd, Resizer.oldEntry, Resizer.lock_eq hm hc rfl] at hn
  rw [if_pos (by rw [hm, hc]; rfl)] at hn
  cases hn
  have hs : x.Sets .lockOld .lockNew x.oldSuffix ⟨1, x.depth, x.oldTable⟩ := by
    refine ⟨by simp [entry, locks, fixed, early], fun k _ hk => ?_⟩
    simp [locks, fixed, early, hk]
  exact ⟨rfl, .of_early h.idx h.overflow rfl htab hdeep ⟨hd, hle, hs.listed hdir, hs.listed hcache⟩⟩

theorem step_lockNew (hpc : r.pc = .lockNew) : r'.pc = .readOld ∧ x.Control alloc m'.dir r' := by
  obtain ⟨htab, hat⟩ := h.early_at hpc rfl
  obtain ⟨hd, hle, hdir, hcache⟩ := Planned.at_pc hat hpc
  have hdeep := h.deep (hpc ▸ rfl)
  have hlt := h.oldSuffix_lt_pow (hpc ▸ rfl)
  have hne := x.oldSuffix_ne_newSuffix
  have hold : r.dirCache.subtables x.oldSuffix = ⟨1, x.depth, x.oldTable⟩ := by
    rw [hcache.entries _ hlt x.oldSuffix_class]
    simp [entry, locks, cached, fixed, early]
  have hc : r.dirCache.subtables x.newSuffix = ⟨0, x.depth, x.oldTable⟩ := by
    rw [hcache.entries _ hdeep x.newSuffix_class]
    simp [entry, locks, cached, fixed, early, hne.symm]
  have hm : m.dir.subtables x.newSuffix = ⟨0, x.depth, x.oldTable⟩ := by
    rw [hdir.entries _ hdeep x.newSuffix_class]
    simp [entry, locks, fixed, early, hne.symm]
  let r₁ := r.setCache x.newSuffix ⟨1, x.depth, x.oldTable⟩
  have ho : r₁.oldEntry = ⟨1, x.depth, x.oldTable⟩ := by
    change update r.dirCache.subtables x.newSuffix _ r.oldSuffix = _
    rw [h.oldSuffix_eq hd, update_of_ne hne, hold]
  have hw : r₁.newEntry = ⟨1, x.depth, x.oldTable⟩ := by
    change update r.dirCache.subtables x.newSuffix _ r.newSuffix = _
    rw [h.newSuffix_eq hd, update_self]
  have hbranch := Resizer.branch_eq (alloc r.allocs) (by rw [ho]; exact hd.symm)
    (by rw [hw]; exact hd.symm) (by rw [ho, hw])
  have hos : r₁.oldSuffix = x.oldSuffix := h.oldSuffix_eq hd
  have hns : r₁.newSuffix = x.newSuffix := h.newSuffix_eq hd
  simp only [resizeStep, hpc, h.newSuffix_eq hd, Resizer.newEntry, Resizer.lock_eq hm hc rfl] at hn
  rw [if_pos (by rw [hm, hc])] at hn
  rw [hbranch, ho, hw, hos, hns, htab] at hn
  cases hn
  refine ⟨rfl, .of_late h.idx h.overflow rfl rfl hd hdeep ⟨rfl, hd, hle, hdir.setEntry ?_ ?_, ?_⟩⟩
  · simp [entry, locks, fixed, early, sizing]
  · intro k _ _ hk
    simp [locks, fixed, early, sizing, hk]
  · have h1 : x.Listed r₁.dirCache r.globalDepth (x.locks .readOld) fun _ => false := by
      refine hcache.setEntry ?_ fun k _ _ hk => ?_
      · simp [entry, locks, early, sizing]
      · simp [locks, cached, fixed, early, sizing, hk]
    have h2 : x.Listed (r₁.dirCache.setEntry x.newSuffix ⟨1, r.depth + 1, x.newTable⟩)
        r.globalDepth (x.locks .readOld) fun k => k = x.newSuffix := by
      refine h1.setEntry ?_ fun k _ _ hk => ?_
      · simp [entry, locks, early, sizing, hd, tableOf_of_new x.newSuffix_mod]
      · simp [hk]
    refine h2.setEntry ?_ fun k _ _ hk => ?_
    · change (⟨1, r.depth + 1, x.oldTable⟩ : SubTableEntry) = _
      simp [entry, locks, cached, early, sizing, hd, tableOf_of_old x.oldSuffix_mod]
    · simp [cached, hk]

theorem step_writeOldEntry (hpc : r.pc = .writeOldEntry) : x.Control alloc m'.dir r' := by
  obtain ⟨-, -, hd, hle, hdir, hcache⟩ := h.late_at hpc rfl
  have hold := h.oldEntry_eq hpc rfl
  simp only [resizeStep, hpc, h.oldSuffix_eq hd] at hn
  cases hn
  refine h.goLate hpc rfl ⟨hd, hle, hdir.setEntry ?_ ?_, hcache⟩
  · rw [hold]
    simp [locks, cached, fixed, early, sizing]
  · intro k _ _ hk
    simp [locks, fixed, early, sizing, hk]

theorem step_writeNewEntry (hpc : r.pc = .writeNewEntry) : x.Control alloc m'.dir r' := by
  obtain ⟨-, hfix, hd, hle, hdir, hcache⟩ := h.late_at hpc rfl
  have hnew := h.newEntry_eq hpc rfl
  simp only [resizeStep, hpc, h.oldSuffix_eq hd, h.newSuffix_eq hd, hfix] at hn
  cases hn
  -- `fix_local_depth` starts behind the two entries
  have hfixed : ∀ k, x.fixed (.fixOld (x.oldSuffix + 2 ^ (x.depth + 1))) k =
      x.cached .writeNewEntry k := by
    intro k
    have hk : k % 2 ^ (x.depth + 1) = x.oldSuffix ∧ k < x.oldSuffix + 2 ^ (x.depth + 1) ↔
        k = x.oldSuffix := by
      constructor
      · rintro ⟨hk, hlt⟩
        exact Residue.eq_of_lt_add hk hlt
      · rintro rfl
        exact ⟨x.oldSuffix_mod, Nat.lt_add_of_pos_right (Nat.two_pow_pos _)⟩
    simp only [fixed, cached, ← Bool.decide_and, hk, Bool.or_comm]
  refine h.goLate hpc rfl ⟨?_, ?_, hd, hle, ?_, ?_⟩ hfix.symm
  · rw [add_mod_right, x.oldSuffix_mod]
  · exact Nat.lt_add_of_pos_right (Nat.two_pow_pos _)
  · refine hdir.setEntry ?_ fun k _ _ hk => ⟨rfl, ?_⟩
    · rw [hnew, hfixed]
      rfl
    · rw [hfixed]
      simp [cached, fixed, hk]
  · exact hcache.congr fun k _ _ => ⟨rfl, hfixed k⟩

variable {s : ℕ}

omit hn in
theorem fix_eq (hpc : r.pc = pc) (hl : pc.early = false) (hcached : x.cached pc = x.fixed pc)
    (hs : s % 2 ^ x.depth = x.oldSuffix) (hsG : s < 2 ^ r.globalDepth)
    (hLF : x.locks pc s = false ∧ x.fixed pc s = false) (p : ℕ) :
    (r.dirCache.subtables s).pointer = x.oldTable ∧
      r.fix m s p = (m.setEntry s ⟨0, x.depth + 1, p⟩, r.setCache s ⟨0, x.depth + 1, p⟩) := by
  obtain ⟨-, hfix, -, -, hdir, hcache⟩ := h.late_at hpc hl
  have hm := hdir.entries s hsG hs
  have hca := hcache.entries s hsG hs
  rw [hcached] at hca
  rw [hLF.1, hLF.2] at hm hca
  refine ⟨by rw [hca]; rfl, ?_⟩
  rw [Resizer.fix_eq hm hca rfl hfix.symm, hfix]

theorem step_fixOld (hpc : r.pc = .fixOld s) : x.Control alloc m'.dir r' := by
  obtain ⟨-, hfix, hd, hle, hdir, hcache⟩ := h.late_at hpc rfl
  have hat := h.at_pc
  rw [hpc] at hat
  obtain ⟨hs, hlt, -⟩ := hat
  simp only [resizeStep, hpc] at hn
  split at hn
  · rename_i hsG
    have hc := x.mod_depth_of_mod hs
    rw [x.oldSuffix_class] at hc
    have hne : s ≠ x.newSuffix := by
      rintro rfl
      exact x.oldSuffix_ne_newSuffix (hs.symm.trans x.newSuffix_mod)
    have hLF : x.locks (.fixOld s) s = false ∧ x.fixed (.fixOld s) s = false := by
      simp [locks, fixed, early, sizing, hne, hlt.ne']
    obtain ⟨hp, hf⟩ := h.fix_eq hpc rfl rfl hc hsG hLF x.oldTable
    rw [hp, hf, hfix] at hn
    cases hn
    have hset : x.Sets (.fixOld s) (.fixOld (s + 2 ^ (x.depth + 1))) s
        ⟨0, x.depth + 1, x.oldTable⟩ := by
      refine ⟨?_, fun k _ hk => ⟨rfl, ?_⟩⟩
      · simp [entry, locks, fixed, early, sizing, hne, hlt.ne', hs, tableOf_of_old hs]
      · have hiff : k % 2 ^ (x.depth + 1) = x.oldSuffix ∧ k < s + 2 ^ (x.depth + 1) ↔
            k % 2 ^ (x.depth + 1) = x.oldSuffix ∧ k < s :=
          and_congr_right fun hko =>
            ⟨fun hlt => Residue.lt_of_lt_add (hko.trans hs.symm) hlt hk, fun hlt => by omega⟩
        simp only [fixed, ← Bool.decide_and, hiff]
    refine h.goLate hpc rfl ⟨?_, ?_, hd, hle, hset.listed hdir, hset.listed hcache⟩
    · rw [add_mod_right, hs]
    · omega
  · rename_i hsG
    rw [h.oldSuffix_eq hd, hfix] at hn
    cases hn
    have hfixed : ∀ k < 2 ^ r.globalDepth, k % 2 ^ x.depth = x.oldSuffix →
        x.locks (.fixNew (x.newSuffix + 2 ^ (x.depth + 1))) k = x.locks (.fixOld s) k ∧
          x.fixed (.fixNew (x.newSuffix + 2 ^ (x.depth + 1))) k = x.fixed (.fixOld s) k := by
      intro k hk hc
      refine ⟨rfl, ?_⟩
      rcases x.class_cases hc with ho | hn
      · have hks : k < s := by omega
        simp [fixed, ho, hks]
      · have hiff : k < x.newSuffix + 2 ^ (x.depth + 1) ↔ k = x.newSuffix := by
          refine ⟨Residue.eq_of_lt_add hn, ?_⟩
          rintro rfl
          exact Nat.lt_add_of_pos_right (Nat.two_pow_pos _)
        simp [fixed, hn, x.oldSuffix_ne_newSuffix.symm, hiff]
    refine h.goLate hpc rfl ⟨?_, ?_, hd, hle, hdir.congr hfixed, hcache.congr hfixed⟩ hfix.symm
    · rw [← newSuffix, add_mod_right, x.newSuffix_mod]
    · exact Nat.lt_add_of_pos_right (Nat.two_pow_pos _)

theorem step_fixNew (hpc : r.pc = .fixNew s) : x.Control alloc m'.dir r' := by
  obtain ⟨-, hfix, hd, hle, hdir, hcache⟩ := h.late_at hpc rfl
  have hat := h.at_pc
  rw [hpc] at hat
  obtain ⟨hs, hlt, -⟩ := hat
  simp only [resizeStep, hpc] at hn
  split at hn
  · rename_i hsG
    have hc := x.mod_depth_of_mod hs
    rw [x.newSuffix_class] at hc
    have hne : s ≠ x.oldSuffix := by
      rintro rfl
      exact x.oldSuffix_ne_newSuffix (x.oldSuffix_mod.symm.trans hs)
    have hLF : x.locks (.fixNew s) s = false ∧ x.fixed (.fixNew s) s = false := by
      simp [locks, fixed, early, sizing, hne, hlt.ne', hs, x.oldSuffix_ne_newSuffix.symm]
    have hpt : (r.dirCache.subtables (r.oldSuffix + 2 ^ r.fixDepth)).pointer = x.newTable := by
      rw [h.oldSuffix_eq hd, hfix, ← newSuffix,
        hcache.entries _ (h.deep (hpc ▸ rfl)) x.newSuffix_class]
      simp [entry, cached, fixed, hlt, tableOf_of_new x.newSuffix_mod]
    rw [hpt, (h.fix_eq hpc rfl rfl hc hsG hLF _).2, hfix] at hn
    cases hn
    have hset : x.Sets (.fixNew s) (.fixNew (s + 2 ^ (x.depth + 1))) s
        ⟨0, x.depth + 1, x.newTable⟩ := by
      refine ⟨?_, fun k hc hk => ⟨rfl, ?_⟩⟩
      · simp [entry, locks, fixed, early, sizing, hne, hlt.ne', tableOf_of_new hs]
      · rcases x.class_cases hc with ho | hn
        · simp [fixed, ho]
        · have hiff : k < s + 2 ^ (x.depth + 1) ↔ k < s :=
            ⟨fun hlt => Residue.lt_of_lt_add (hn.trans hs.symm) hlt hk, fun hlt => by omega⟩
          simp only [fixed, hiff]
    refine h.goLate hpc rfl ⟨?_, ?_, hd, hle, hset.listed hdir, hset.listed hcache⟩
    · rw [add_mod_right, hs]
    · omega
  · rename_i hsG
    cases hn
    have hfixed : ∀ k < 2 ^ r.globalDepth, k % 2 ^ x.depth = x.oldSuffix →
        x.locks (.bucket 0) k = x.locks (.fixNew s) k ∧
          x.fixed (.bucket 0) k = x.fixed (.fixNew s) k := by
      intro k hk hc
      have hks : k < s := by omega
      refine ⟨rfl, ?_⟩
      simp [fixed, early, sizing, hks]
    exact h.goLate hpc rfl ⟨hd, hle, hdir.congr hfixed, hcache.congr hfixed⟩

theorem step_unlockOld (hpc : r.pc = .unlockOld) : x.Control alloc m'.dir r' := by
  obtain ⟨-, -, hd, hle, hdir, hcache⟩ := h.late_at hpc rfl
  have hold := h.oldEntry_eq hpc rfl
  rw [Resizer.oldEntry, h.oldSuffix_eq hd] at hold
  simp only [resizeStep, hpc, h.oldSuffix_eq hd, Resizer.unlock, hold] at hn
  cases hn
  have hs : x.Sets .unlockOld .unlockNew x.oldSuffix
      { x.entry (x.locks .unlockOld x.oldSuffix) (x.cached .unlockOld x.oldSuffix)
        x.oldSuffix with lock := 0 } := by
    refine ⟨?_, fun k _ hk => by simp [locks, fixed, early, sizing, hk]⟩
    simp [entry, locks, cached, fixed, early, sizing, x.oldSuffix_ne_newSuffix]
  exact h.goLate hpc rfl ⟨hd, hle, hs.listed hdir, hs.listed hcache⟩

theorem step_unlockNew (hpc : r.pc = .unlockNew) :
    r'.pc = .returned ∧ x.Control alloc m'.dir r' := by
  obtain ⟨hexit, -, hd, hle, hdir, hcache⟩ := h.late_at hpc rfl
  have hnew := h.newEntry_eq hpc rfl
  rw [Resizer.newEntry, h.newSuffix_eq hd] at hnew
  simp only [resizeStep, hpc, h.newSuffix_eq hd, Resizer.unlock, hnew, hexit, h.overflow] at hn
  cases hn
  have hs : x.Sets .unlockNew .returned x.newSuffix
      { x.entry (x.locks .unlockNew x.newSuffix) (x.cached .unlockNew x.newSuffix)
        x.newSuffix with lock := 0 } := by
    refine ⟨?_, fun k _ hk => by simp [locks, fixed, early, sizing, hk]⟩
    simp [entry, locks, cached, fixed, early, sizing]
  exact ⟨rfl, h.goLate hpc rfl ⟨hd, hle, hs.listed hdir, hs.listed hcache⟩⟩

section
variable (hroom : ∀ i j n l, r.pc = .copy i j n l → j < kAssociatedWays → n < kAssociatedWays)
include hroom

theorem step_move (hpc : r.pc.moving) : x.Control alloc m'.dir r' := by
  have hlate := ResizePc.early_of_moving hpc
  obtain ⟨-, -, hd, hle, hdir, hcache⟩ := h.late_at rfl hlate
  cases resizeStep_moving hpc hn with
  | noRoom hpc hj _ hnr => exact absurd (hroom _ _ _ _ hpc hj) hnr
  | clear hpc =>
    rw [hpc] at hdir hcache
    split <;> exact h.goLate rfl hlate ⟨hd, hle, hdir, hcache⟩
  | enter hpc | pass hpc | leave hpc | skip hpc | take hpc | taken hpc | used hpc | copied hpc
  | cleared hpc | undo hpc =>
    rw [hpc] at hdir hcache
    exact h.goLate rfl hlate ⟨hd, hle, hdir, hcache⟩

theorem step : x.Control alloc m'.dir r' := by
  cases hpc : r.pc with
  | start => exact h.step_start hn hpc
  | size => exact h.step_size hn hpc
  | growCas g => exact h.step_grow hn (.inl hpc)
  | growRead g => exact h.step_grow hn (.inr (.inl hpc))
  | growWrite g => exact h.step_grow hn (.inr (.inr hpc))
  | growPublish => exact h.step_publish hn hpc
  | lockOld => exact (h.step_lockOld hn hpc).2
  | lockNew => exact (h.step_lockNew hn hpc).2
  | readOld | writeNew =>
    obtain ⟨-, -, hd, hle, hdir, hcache⟩ := h.late_at hpc rfl
    simp only [resizeStep, hpc] at hn
    cases hn
    exact h.goLate hpc rfl ⟨hd, hle, hdir, hcache⟩
  | writeOldEntry => exact h.step_writeOldEntry hn hpc
  | writeNewEntry => exact h.step_writeNewEntry hn hpc
  | fixOld s => exact h.step_fixOld hn hpc
  | fixNew s => exact h.step_fixNew hn hpc
  | bucket | copy | clear | undo => exact h.step_move hn hroom (hpc ▸ rfl)
  | unlockOld => exact h.step_unlockOld hn hpc
  | unlockNew => exact (h.step_unlockNew hn hpc).2
  | returned => simp [resizeStep, hpc] at hn

end

end

/-! ### What a client reads -/

theorem listed (h : x.Control alloc D r) (hu : D.locked = false) :
    x.depth ≤ D.globalDepth ∧ x.Listed D D.globalDepth (x.locks r.pc) (x.fixed r.pc) := by
  have hplan : x.Planned D r →
      x.depth ≤ D.globalDepth ∧ x.Listed D D.globalDepth (x.locks r.pc) (x.fixed r.pc) := by
    intro hp
    rw [hp.dir.globalDepth]
    exact ⟨hp.depth_le, hp.dir⟩
  have hat := h.at_pc
  cases hpc : r.pc <;> rw [hpc] at hat <;> rw [hpc] at hplan
  case start => exact ⟨hat.1, hat.2.2⟩
  case growCas => exact hplan hat.2
  case growRead => exact absurd (hat.2.locked.symm.trans hu) (by decide)
  case growWrite => exact absurd (hat.1.locked.symm.trans hu) (by decide)
  case growPublish => exact absurd (hat.2.2.1.symm.trans hu) (by decide)
  case readOld => exact hplan hat.2
  case fixOld | fixNew => exact hplan hat.2.2
  all_goals exact hplan hat

theorem entry_eq {key : Bytes} (h : x.Control alloc D r) (hu : D.locked = false)
    (hk : x.Member hash key) : (D.entry (hash key)).localDepth =
        (if x.fixed r.pc (D.index (hash key)) then x.depth + 1 else x.depth) ∧
      (D.entry (hash key)).pointer =
        if x.fixed r.pc (D.index (hash key)) then x.tableOf (hash key).h0.toNat
        else x.oldTable := by
  obtain ⟨hd, hl⟩ := h.listed hu
  rw [hl.entry_eq hd hk]
  refine ⟨rfl, ?_⟩
  by_cases hf : x.fixed r.pc (D.index (hash key))
  · have hearly := x.early_of_fixed hf
    have hp := h.planned hearly
    have hdeep : x.depth < D.globalDepth := by
      rw [hp.dir.globalDepth]
      refine (Nat.pow_lt_pow_iff_right (by decide : 1 < 2)).mp
        (lt_of_le_of_lt ?_ (h.deep (sizing_of_early hearly)))
      exact Nat.le_add_left _ _
    simp only [entry, hf, if_true]
    exact x.tableOf_mod hdeep _
  · simp [entry, hf]

end Split.Control
end Fusa.Table

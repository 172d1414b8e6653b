import Fusa.Table.SplitHeaders

/-! The directory entries of the other subtables while one is split. -/
namespace Fusa.Table

namespace Split
variable (x : Split)

/-- The entries below `2 ^ G` of the other subtables are those of the directory at rest. -/
def Rest (D : Directory) (G : ℕ) : Prop :=
  ∀ i < 2 ^ G, i % 2 ^ x.depth ≠ x.oldSuffix →
    D.subtables i = x.dir.subtables (i % 2 ^ x.dir.globalDepth)

/-- The same in the directory `D` of the memory and in the copy of `resize`. -/
structure Kept (D cache : Directory) (G : ℕ) : Prop where
  le : x.dir.globalDepth ≤ G
  le_max : G ≤ kMaxGlobalDepth
  dir : x.Rest D G
  cache : x.Rest cache G

def RestAt (D : Directory) (r : Resizer) : ResizePc → Prop
  | .start => x.Kept D D D.globalDepth
  | .growCas g => g ≤ x.depth ∧ x.Kept D r.dirCache g
  | .growRead g => x.dir.globalDepth ≤ g ∧ g < kMaxGlobalDepth ∧ x.Rest D g
  | .growWrite g =>
    x.dir.globalDepth ≤ g ∧ g < kMaxGlobalDepth ∧ x.Rest D g ∧ x.Rest r.dirCache (g + 1)
  | .growPublish => x.Kept D r.dirCache r.dirCache.globalDepth
  | _ => x.Kept D r.dirCache r.globalDepth

end Split

variable {x : Split} {hash : Bytes → Hashes} {alloc : ℕ → ℕ} {D cache : Directory}
  {m m' : Memory} {r r' : Resizer} {G s : ℕ} {e : SubTableEntry}

theorem Split.Rest.setEntry (h : x.Rest D G) (hs : s % 2 ^ x.depth = x.oldSuffix) :
    x.Rest (D.setEntry s e) G := by
  intro i hi hc
  have hne : i ≠ s := by
    rintro rfl
    exact hc hs
  exact (Function.update_of_ne hne _ _).trans (h i hi hc)

theorem Split.Rest.grow (h : x.Rest D G) (hd : x.depth ≤ G) (hle : x.dir.globalDepth ≤ G)
    (hidle : ∀ i < 2 ^ x.dir.globalDepth, (x.dir.subtables i).lock = 0) :
    x.Rest (D.grow G) (G + 1) := by
  intro i hi hc
  simp only [Directory.grow]
  split
  · rename_i hup
    have hlow : i - 2 ^ G < 2 ^ G := by
      rw [Nat.pow_succ] at hi
      omega
    have hmod : ∀ {d}, d ≤ G → (i - 2 ^ G) % 2 ^ d = i % 2 ^ d := by
      intro d hd
      obtain ⟨k, hk⟩ := pow_dvd_pow 2 hd
      rw [hk] at hup ⊢
      exact Nat.sub_mul_mod hup.1
    rw [h (i - 2 ^ G) hlow (by rwa [hmod hd]), hmod hle,
      ← hidle (i % 2 ^ x.dir.globalDepth) (Nat.mod_lt _ (Nat.two_pow_pos _))]
  · rename_i hup
    exact h i (by omega) hc

section
variable (h : x.Kept D cache G) (hs : s % 2 ^ x.depth = x.oldSuffix)
include h hs

theorem Split.Kept.setCache :
    x.Kept D (cache.setEntry s e) G := ⟨h.le, h.le_max, h.dir, h.cache.setEntry hs⟩

theorem Split.Kept.setDir :
    x.Kept (D.setEntry s e) cache G := ⟨h.le, h.le_max, h.dir.setEntry hs, h.cache⟩

end

theorem Split.Kept.lock (h : x.Kept m.dir r.dirCache G) (hs : s % 2 ^ x.depth = x.oldSuffix) :
    x.Kept (r.lock m s).1.dir (r.lock m s).2.dirCache G ∧
      (r.lock m s).2.globalDepth = r.globalDepth := by
  rw [Resizer.lock]
  split
  · exact ⟨(h.setDir hs).setCache hs, rfl⟩
  · exact ⟨h.setCache hs, rfl⟩

theorem Split.Kept.fix (pointer : ℕ) (h : x.Kept m.dir r.dirCache G)
    (hs : s % 2 ^ x.depth = x.oldSuffix) :
    x.Kept (r.fix m s pointer).1.dir (r.fix m s pointer).2.dirCache G ∧
      (r.fix m s pointer).2.globalDepth = r.globalDepth := by
  rw [Resizer.fix]
  split
  · exact ⟨h, rfl⟩
  · split
    · exact ⟨(h.setDir hs).setCache hs, rfl⟩
    · exact ⟨h.setCache hs, rfl⟩

theorem Split.Kept.branch (table : ℕ) (h : x.Kept D r.dirCache G)
    (ho : r.oldSuffix % 2 ^ x.depth = x.oldSuffix) (hw : r.newSuffix % 2 ^ x.depth = x.oldSuffix) :
    x.Kept D (r.branch table).dirCache G ∧ (r.branch table).globalDepth = r.globalDepth := by
  unfold Resizer.branch
  split
  · exact ⟨h, rfl⟩
  · split
    · exact ⟨h, rfl⟩
    · exact ⟨(h.setCache hw).setCache ho, rfl⟩

section
variable (hc : x.Control alloc m.dir r) (h : x.RestAt m.dir r r.pc)
  (hn : resizeStep hash alloc m r = some (m', r'))
  (hidle : ∀ i < 2 ^ x.dir.globalDepth, (x.dir.subtables i).lock = 0)
include hc h hn

theorem Split.Control.rest_sizing (hpc : r.pc = .start ∨ r.pc = .size) :
    x.RestAt m'.dir r' r'.pc := by
  have hat := hc.at_pc
  rcases hpc with hpc | hpc <;> rw [hpc] at h hat <;>
    simp only [resizeStep, hpc, Option.some.injEq, Prod.mk.injEq] at hn <;> obtain ⟨rfl, rfl⟩ := hn
  · rwa [hat.2.2.unlocked, if_neg Bool.false_ne_true]
  · split
    · rename_i hg
      refine ⟨?_, h⟩
      have hlt := x.oldSuffix_lt
      rw [hc.newSuffix_eq hat.depth, Split.newSuffix] at hg
      have hpow : 2 ^ r.globalDepth < 2 ^ (x.depth + 1) := by
        rw [Nat.pow_succ]
        omega
      exact Nat.lt_succ_iff.mp ((Nat.pow_lt_pow_iff_right (by decide)).mp hpow)
    · exact h

include hidle in
theorem Split.Control.rest_grow {g : ℕ}
    (hpc : r.pc = .growCas g ∨ r.pc = .growRead g ∨ r.pc = .growWrite g ∨ r.pc = .growPublish) :
    x.RestAt m'.dir r' r'.pc := by
  have hat := hc.at_pc
  rcases hpc with hpc | hpc | hpc | hpc <;> rw [hpc] at h hat <;>
    simp only [resizeStep, hpc] at hn
  · obtain ⟨rfl, hp⟩ := hat
    split at hn
    · rename_i hg
      cases hn
      refine ⟨h.2.le, hg, ?_⟩
      split <;> exact h.2.dir
    · cases hn
  · obtain ⟨hbuf, hg⟩ := hat
    rw [if_pos hbuf] at hn
    cases hn
    exact ⟨h.1, h.2.1, h.2.2, h.2.2.grow hg.depth_le h.1 hidle⟩
  · cases hn
    obtain ⟨hle, hlt, hdir, hcache⟩ := h
    have hG : r.dirCache.globalDepth = g + 1 := hat.2.globalDepth
    refine ⟨by rw [hG]; omega, by rw [hG]; exact hlt, ?_, by rwa [hG]⟩
    rw [hG]
    intro i hi hcl
    dsimp only
    split
    · exact hcache i hi hcl
    · exact hdir i (by omega) hcl
  · cases hn
    exact ⟨h.le, h.le_max, h.dir, h.cache⟩

theorem Split.Control.rest_lockOld (hpc : r.pc = .lockOld) : x.RestAt m'.dir r' r'.pc := by
  have hat := hc.at_pc
  rw [hpc] at h hat
  simp only [resizeStep, hpc] at hn
  rw [hc.oldSuffix_eq hat.depth] at hn
  obtain ⟨hk, hg⟩ := Split.Kept.lock h x.oldSuffix_class
  cases hn
  rw [← hg] at hk
  split
  · exact hk
  · rwa [(r.lock_frame (m := m) x.oldSuffix).2.1, hpc]

theorem Split.Control.rest_lockNew (hpc : r.pc = .lockNew) : x.RestAt m'.dir r' r'.pc := by
  have hat := hc.at_pc
  obtain ⟨hpc', -⟩ := hc.step_lockNew hn hpc
  rw [hpc'] at *
  rw [hpc] at h hat
  simp only [resizeStep, hpc] at hn
  rw [hc.newSuffix_eq hat.depth] at hn
  obtain ⟨hk, hg⟩ := Split.Kept.lock h x.newSuffix_class
  rw [← hg] at hk
  have hlocked : (r.lock m x.newSuffix).2.oldSuffix = x.oldSuffix ∧
      (r.lock m x.newSuffix).2.newSuffix = x.newSuffix := by
    rw [← hc.oldSuffix_eq hat.depth, ← hc.newSuffix_eq hat.depth, Resizer.lock]
    split <;> exact ⟨rfl, rfl⟩
  cases hn
  split
  · obtain ⟨hb, hbg⟩ := hk.branch (alloc r.allocs)
      (by rw [hlocked.1]; exact x.oldSuffix_class) (by rw [hlocked.2]; exact x.newSuffix_class)
    rwa [← hbg] at hb
  · exact hk

theorem Split.Control.rest_entry (hpc : r.pc = .writeOldEntry ∨ r.pc = .writeNewEntry ∨
    r.pc = .unlockOld ∨ r.pc = .unlockNew) : x.RestAt m'.dir r' r'.pc := by
  have hlate : r.pc.early = false := by rcases hpc with h | h | h | h <;> rw [h] <;> rfl
  have hd := (hc.planned hlate).depth
  have ho : r.oldSuffix % 2 ^ x.depth = x.oldSuffix := by
    rw [hc.oldSuffix_eq hd, x.oldSuffix_class]
  have hw : r.newSuffix % 2 ^ x.depth = x.oldSuffix := by
    rw [hc.newSuffix_eq hd, x.newSuffix_class]
  rcases hpc with hpc | hpc | hpc | hpc <;> rw [hpc] at h
  · simp only [resizeStep, hpc] at hn
    cases hn
    exact Split.Kept.setDir h ho
  · simp only [resizeStep, hpc] at hn
    cases hn
    exact Split.Kept.setDir h hw
  · simp only [resizeStep, hpc] at hn
    cases hn
    exact (Split.Kept.setDir h ho).setCache ho
  · obtain ⟨hpc', -⟩ := hc.step_unlockNew hn hpc
    simp only [resizeStep, hpc, (hc.finish hlate).1, hc.overflow] at hn
    cases hn
    exact (Split.Kept.setDir h hw).setCache hw

theorem Split.Control.rest_fix (hpc : r.pc = .fixOld s ∨ r.pc = .fixNew s) :
    x.RestAt m'.dir r' r'.pc := by
  have hat := hc.at_pc
  rcases hpc with hpc | hpc <;> rw [hpc] at h hat <;> simp only [resizeStep, hpc] at hn
  · have hs := x.mod_depth_of_mod hat.1
    rw [x.oldSuffix_class] at hs
    split at hn <;> cases hn
    · obtain ⟨hk, hg⟩ := Split.Kept.fix (r.dirCache.subtables s).pointer h hs
      rwa [← hg] at hk
    · exact h
  · have hs := x.mod_depth_of_mod hat.1
    rw [x.newSuffix_class] at hs
    split at hn <;> cases hn
    · obtain ⟨hk, hg⟩ := Split.Kept.fix
        (r.dirCache.subtables (r.oldSuffix + 2 ^ r.fixDepth)).pointer h hs
      rwa [← hg] at hk
    · exact h

include hidle in
theorem Split.Control.rest_step : x.RestAt m'.dir r' r'.pc := by
  cases hpc : r.pc with
  | start => exact hc.rest_sizing h hn (.inl hpc)
  | size => exact hc.rest_sizing h hn (.inr hpc)
  | growCas g => exact hc.rest_grow h hn hidle (.inl hpc)
  | growRead g => exact hc.rest_grow h hn hidle (.inr (.inl hpc))
  | growWrite g => exact hc.rest_grow h hn hidle (.inr (.inr (.inl hpc)))
  | growPublish => exact hc.rest_grow (g := 0) h hn hidle (.inr (.inr (.inr hpc)))
  | lockOld => exact hc.rest_lockOld h hn hpc
  | lockNew => exact hc.rest_lockNew h hn hpc
  | readOld | writeNew =>
    rw [hpc] at h
    simp only [resizeStep, hpc] at hn
    cases hn
    exact h
  | writeOldEntry => exact hc.rest_entry h hn (.inl hpc)
  | writeNewEntry => exact hc.rest_entry h hn (.inr (.inl hpc))
  | fixOld s => exact hc.rest_fix h hn (.inl hpc)
  | fixNew s => exact hc.rest_fix h hn (.inr hpc)
  | bucket | copy | clear | undo =>
    rw [hpc] at h
    cases resizeStep_moving (hpc ▸ rfl) hn with
    | clear =>
      split <;> exact h
    | _ => exact h
  | unlockOld => exact hc.rest_entry h hn (.inr (.inr (.inl hpc)))
  | unlockNew => exact hc.rest_entry h hn (.inr (.inr (.inr hpc)))
  | returned => simp [resizeStep, hpc] at hn

end

end Fusa.Table

import Fusa.Table.AtRest
import Fusa.Table.ResizeEnds

/-! The invariant of extendible hashing, and that a `resize` with nothing else running keeps it. -/
namespace Fusa.Table

open Nat

/-- Entries name subtables by suffixes, buckets carry depth and suffix, and stored keys have it. -/
structure Extendible (hash : Bytes → Hashes) (m : Memory) : Prop where
  unlocked : m.dir.locked = false
  le_max : m.dir.globalDepth ≤ kMaxGlobalDepth
  localDepth_le : ∀ i < 2 ^ m.dir.globalDepth, (m.dir.subtables i).localDepth ≤ m.dir.globalDepth
  idle : ∀ i < 2 ^ m.dir.globalDepth, (m.dir.subtables i).lock = 0
  shared : ∀ i < 2 ^ m.dir.globalDepth, ∀ j < 2 ^ m.dir.globalDepth,
    j % 2 ^ (m.dir.subtables i).localDepth = i % 2 ^ (m.dir.subtables i).localDepth →
    (m.dir.subtables j).pointer = (m.dir.subtables i).pointer ∧
      (m.dir.subtables j).localDepth = (m.dir.subtables i).localDepth
  header : ∀ i < 2 ^ m.dir.globalDepth, ∀ b < kTotalBuckets,
    m.header (bucketAddr (m.dir.subtables i).pointer b) =
      ⟨(m.dir.subtables i).localDepth, i % 2 ^ (m.dir.subtables i).localDepth⟩
  apart : ∀ i < 2 ^ m.dir.globalDepth, ∀ j < 2 ^ m.dir.globalDepth,
    (m.dir.subtables i).pointer ≠ (m.dir.subtables j).pointer →
    Apart (m.dir.subtables i).pointer (m.dir.subtables j).pointer
  stored : ∀ i < 2 ^ m.dir.globalDepth, ∀ b j a, IsSlot (m.dir.subtables i).pointer b j a →
    m.slot a ≠ .null → ∃ c, m.block (m.slot a).pointer = some c ∧
      (hash c.storedKey).h0.toNat % 2 ^ (m.dir.subtables i).localDepth =
        i % 2 ^ (m.dir.subtables i).localDepth

/-- There is fresh memory for a split, and the directory can grow when it must. -/
structure Splittable (x : Split) (m : Memory) : Prop where
  dir : x.dir = m.dir
  idx_lt : x.idx < 2 ^ x.dir.globalDepth
  grows : x.depth = x.dir.globalDepth → x.dir.globalDepth < kMaxGlobalDepth
  fresh : ∀ i < 2 ^ x.dir.globalDepth, Apart (x.dir.subtables i).pointer x.newTable

variable {x : Split} {hash : Bytes → Hashes} {alloc : ℕ → ℕ} {m₀ m : Memory} {r : Resizer}
  {i j : ℕ}

theorem Splittable.apart (hx : Splittable x m) : Apart x.oldTable x.newTable :=
  hx.fresh x.idx hx.idx_lt

variable {b p q a : ℕ}

theorem inTable_bucketAddr (base : ℕ) (hb : b < kTotalBuckets) :
    InTable base (bucketAddr base b) := by
  simp only [InTable, bucketAddr, bucketBytes]
  omega

theorem Apart.not_inTable (h : Apart p q) (ha : InTable p a) : ¬ InTable q a := by
  unfold Apart at h
  unfold InTable at *
  omega

theorem Apart.symm (h : Apart p q) : Apart q p := Or.symm h

theorem Extendible.mod_eq_of_pointer (h : Extendible hash m) (hi : i < 2 ^ m.dir.globalDepth)
    (hj : j < 2 ^ m.dir.globalDepth)
    (hp : (m.dir.subtables j).pointer = (m.dir.subtables i).pointer) :
    j % 2 ^ (m.dir.subtables i).localDepth = i % 2 ^ (m.dir.subtables i).localDepth := by
  have hh := h.header j hj 0 (by decide)
  rw [hp, h.header i hi 0 (by decide), Header.mk.injEq] at hh
  rw [hh.2, ← hh.1]

section
variable (h : Extendible hash m₀) (hx : Splittable x m₀)
include h hx

theorem Extendible.depth_le : x.depth ≤ x.dir.globalDepth := by
  have := h.localDepth_le x.idx (hx.dir ▸ hx.idx_lt)
  rwa [← hx.dir] at this

theorem Extendible.depth_lt_max : x.depth < kMaxGlobalDepth := by
  have hle := h.depth_le hx
  have hmax := h.le_max
  rw [← hx.dir] at hmax
  rcases hle.lt_or_eq with hlt | heq
  · exact hlt.trans_le hmax
  · exact heq ▸ hx.grows heq

theorem Extendible.class_entry (hi : i < 2 ^ x.dir.globalDepth)
    (hc : i % 2 ^ x.depth = x.oldSuffix) : x.dir.subtables i = ⟨0, x.depth, x.oldTable⟩ := by
  have hal := h.shared x.idx (hx.dir ▸ hx.idx_lt) i (hx.dir ▸ hi)
  have hidle := h.idle i (hx.dir ▸ hi)
  rw [← hx.dir] at hal hidle
  obtain ⟨hp, hd⟩ := hal hc
  cases he : x.dir.subtables i with
  | mk lock localDepth pointer =>
    rw [he] at hp hd hidle
    rw [SubTableEntry.mk.injEq]
    exact ⟨hidle, hd, hp⟩

theorem Extendible.other_apart (hi : i < 2 ^ x.dir.globalDepth)
    (hc : i % 2 ^ x.depth ≠ x.oldSuffix) : Apart (x.dir.subtables i).pointer x.oldTable := by
  have hmod := h.mod_eq_of_pointer (i := x.idx) (j := i) (hx.dir ▸ hx.idx_lt) (hx.dir ▸ hi)
  have hap := h.apart i (hx.dir ▸ hi) x.idx (hx.dir ▸ hx.idx_lt)
  rw [← hx.dir] at hmod hap
  exact hap fun hp => hc (hmod hp)

theorem Extendible.alone (hr : x.Starts alloc r) : Alone x hash alloc m₀ m₀ r := by
  have hdir := hx.dir
  have hle := h.depth_le hx
  have hlisted : x.Listed m₀.dir m₀.dir.globalDepth (fun _ => false) fun _ => false := by
    refine ⟨rfl, h.unlocked, fun i hi hc => ?_⟩
    rw [← hdir] at hi ⊢
    exact h.class_entry hx hi hc
  have hrest : x.Rest m₀.dir m₀.dir.globalDepth := by
    intro i hi _
    rw [hdir, mod_eq_of_lt hi]
  refine ⟨.of_sizing hr.idx hr.overflow ?_ hr.table ?_, ?_, ⟨?_, ?_, ?_⟩, fun _ _ _ => rfl, ?_⟩
  · rw [hr.pc]
    rfl
  · rw [hr.pc]
    exact ⟨hdir ▸ hle, hdir ▸ hx.idx_lt, hlisted⟩
  · rw [hr.pc]
    exact ⟨(congrArg Directory.globalDepth hdir).le, h.le_max, hrest, hrest⟩
  · intro b hb
    have hh : m₀.header (bucketAddr x.oldTable b) = ⟨x.depth, x.oldSuffix⟩ := by
      have := h.header x.idx (hdir ▸ hx.idx_lt) b hb
      rwa [← hdir] at this
    simpa [hr.pc, ResizePc.progress, Progress.marked] using hh
  · intro ha
    rw [hr.pc] at ha
    exact ha.elim
  · intro hw
    rw [hr.pc] at hw
    cases hw
  · unfold Split.ExactAt
    rw [hr.pc]
    refine ⟨rfl, fun _ _ _ => rfl, ?_, ?_, ?_, fun ha => ha.elim, fun ha => ha.elim, trivial⟩
    · intro i j a hsl _
      rw [hsl.eq]
      rfl
    · exact fun _ _ _ _ _ hc => hc.elim
    · intro hw
      cases hw

end

/-! ### After the split -/

section
variable (h : Alone x hash alloc m₀ m r) (hpc : r.pc = .returned)
include h hpc

theorem Alone.globalDepth_eq : m.dir.globalDepth = r.globalDepth :=
  (h.control.planned (hpc ▸ rfl)).dir.globalDepth

theorem Alone.deep : x.depth < m.dir.globalDepth := by
  have hlt := h.control.deep (hpc ▸ rfl)
  rw [h.globalDepth_eq hpc]
  refine (Nat.pow_lt_pow_iff_right (by decide : 1 < 2)).mp (lt_of_le_of_lt ?_ hlt)
  exact Nat.le_add_left _ _

theorem Alone.entry_class (hi : i < 2 ^ m.dir.globalDepth) (hc : i % 2 ^ x.depth = x.oldSuffix) :
    m.dir.subtables i = ⟨0, x.depth + 1, x.tableOf i⟩ := by
  have hp := (h.control.planned (hpc ▸ rfl)).dir
  rw [h.globalDepth_eq hpc] at hi
  rw [hp.entries i hi hc, hpc]
  simp [Split.entry, Split.locks, Split.fixed, ResizePc.early, ResizePc.sizing]

theorem Alone.kept : x.Kept m.dir r.dirCache m.dir.globalDepth := by
  have hrest := h.rest
  rw [hpc] at hrest
  rwa [h.globalDepth_eq hpc]

theorem Alone.entry_other (hi : i < 2 ^ m.dir.globalDepth) (hc : i % 2 ^ x.depth ≠ x.oldSuffix) :
    m.dir.subtables i = x.dir.subtables (i % 2 ^ x.dir.globalDepth) :=
  (h.kept hpc).dir i hi hc

/-- `resize` leaves the directory of the memory in the cache of its task. -/
theorem Alone.cache_eq : r.dirCache.globalDepth = m.dir.globalDepth ∧
      ∀ i < 2 ^ m.dir.globalDepth, r.dirCache.subtables i = m.dir.subtables i := by
  have hp := h.control.planned (hpc ▸ rfl)
  have hk := h.kept hpc
  refine ⟨hp.cache.globalDepth.trans hp.dir.globalDepth.symm, fun i hi => ?_⟩
  by_cases hc : i % 2 ^ x.depth = x.oldSuffix
  · rw [h.globalDepth_eq hpc] at hi
    rw [hp.dir.entries i hi hc, hp.cache.entries i hi hc, hpc]
    rfl
  · rw [hk.dir i hi hc, hk.cache i hi hc]

theorem Alone.exact : Exact x hash m₀ m .after true r.oldSlot r.newSlot := by
  have hs := h.slots
  unfold Split.ExactAt at hs
  rwa [hpc] at hs

end

section
variable (h₀ : Extendible hash m₀) (hx : Splittable x m₀)
include h₀ hx

theorem Extendible.mod_class (i : ℕ) : i % 2 ^ x.dir.globalDepth % 2 ^ x.depth = i % 2 ^ x.depth :=
  mod_mod_of_dvd _ (pow_dvd_pow 2 (h₀.depth_le hx))

theorem Extendible.mod_other (i j : ℕ) : j % 2 ^ x.dir.globalDepth %
        2 ^ (x.dir.subtables (i % 2 ^ x.dir.globalDepth)).localDepth =
      j % 2 ^ (x.dir.subtables (i % 2 ^ x.dir.globalDepth)).localDepth := by
  have hle := h₀.localDepth_le (i % 2 ^ x.dir.globalDepth)
    (hx.dir ▸ Nat.mod_lt _ (Nat.two_pow_pos _))
  rw [← hx.dir] at hle
  exact mod_mod_of_dvd _ (pow_dvd_pow 2 hle)

variable (h : Alone x hash alloc m₀ m r) (hpc : r.pc = .returned)
include h hpc

section
variable (hi : i < 2 ^ m.dir.globalDepth)
include hi

theorem Alone.entry_cases :
    (i % 2 ^ (x.depth + 1) = x.oldSuffix ∧ m.dir.subtables i = ⟨0, x.depth + 1, x.oldTable⟩) ∨
      (i % 2 ^ (x.depth + 1) = x.newSuffix ∧ m.dir.subtables i = ⟨0, x.depth + 1, x.newTable⟩) ∨
      ∃ k < 2 ^ x.dir.globalDepth, k = i % 2 ^ x.dir.globalDepth ∧ k % 2 ^ x.depth ≠ x.oldSuffix ∧
        m.dir.subtables i = x.dir.subtables k := by
  by_cases hc : i % 2 ^ x.depth = x.oldSuffix
  · have he := h.entry_class hpc hi hc
    rcases x.class_cases hc with ho | hn
    · rw [Split.tableOf_of_old ho] at he
      exact .inl ⟨ho, he⟩
    · rw [Split.tableOf_of_new hn] at he
      exact .inr (.inl ⟨hn, he⟩)
  · refine .inr (.inr ⟨_, Nat.mod_lt _ (Nat.two_pow_pos _), rfl, ?_, h.entry_other hpc hi hc⟩)
    rwa [h₀.mod_class hx]

theorem Alone.shared (hj : j < 2 ^ m.dir.globalDepth)
    (hmod : j % 2 ^ (m.dir.subtables i).localDepth = i % 2 ^ (m.dir.subtables i).localDepth) :
    (m.dir.subtables j).pointer = (m.dir.subtables i).pointer ∧
      (m.dir.subtables j).localDepth = (m.dir.subtables i).localDepth := by
  by_cases hc : i % 2 ^ x.depth = x.oldSuffix
  · have he := h.entry_class hpc hi hc
    rw [he] at hmod
    have hcj : j % 2 ^ x.depth = x.oldSuffix := by
      rw [x.mod_depth_of_mod hmod, ← hc, mod_mod_of_dvd _ (pow_dvd_pow 2 (le_succ _))]
    rw [h.entry_class hpc hj hcj, he]
    simp only [Split.tableOf, and_true]
    rw [hmod]
  · have hG := Nat.two_pow_pos x.dir.globalDepth
    have hki : i % 2 ^ x.dir.globalDepth < 2 ^ m₀.dir.globalDepth := hx.dir ▸ mod_lt _ hG
    have hkj : j % 2 ^ x.dir.globalDepth < 2 ^ m₀.dir.globalDepth := hx.dir ▸ mod_lt _ hG
    rw [h.entry_other hpc hi hc] at hmod ⊢
    have hs := h₀.shared _ hki _ hkj
    rw [← hx.dir, h₀.mod_other hx, h₀.mod_other hx] at hs
    have hcj : j % 2 ^ x.depth ≠ x.oldSuffix := by
      -- otherwise the table of `i` would be the one that is split
      intro hcj
      have hej := h₀.class_entry hx (i := j % 2 ^ x.dir.globalDepth) (mod_lt _ hG)
        (by rw [h₀.mod_class hx, hcj])
      have hp := h₀.mod_eq_of_pointer (i := x.idx) (hx.dir ▸ hx.idx_lt) hki
      rw [← hx.dir] at hp
      refine hc ?_
      rw [← h₀.mod_class hx]
      exact hp (by rw [← (hs hmod).1, hej]; rfl)
    rw [h.entry_other hpc hj hcj]
    exact hs hmod

theorem Alone.header (hb : b < kTotalBuckets) :
    m.header (bucketAddr (m.dir.subtables i).pointer b) =
      ⟨(m.dir.subtables i).localDepth, i % 2 ^ (m.dir.subtables i).localDepth⟩ := by
  rcases h.entry_cases h₀ hx hpc hi with ⟨hm, he⟩ | ⟨hm, he⟩ | ⟨k, hk, rfl, hc, he⟩
  · have hold := h.headers.old b hb
    rw [hpc] at hold
    simpa [he, hm, ResizePc.progress, Progress.marked] using hold
  · have hnew := h.headers.new (hpc ▸ rfl) b hb
    rw [he, hnew, hm]
  · have hap := h₀.other_apart hx hk hc
    have hin := inTable_bucketAddr (x.dir.subtables (i % 2 ^ x.dir.globalDepth)).pointer hb
    have hh := h₀.header _ (hx.dir ▸ hk) b hb
    rw [← hx.dir, h₀.mod_other hx] at hh
    rw [he, h.otherHeaders _ ((hx.fresh _ hk).not_inTable hin), hh]
    intro b' hb' heq
    exact hap.not_inTable hin (heq ▸ inTable_bucketAddr _ hb')

theorem Alone.apart (hj : j < 2 ^ m.dir.globalDepth)
    (hne : (m.dir.subtables i).pointer ≠ (m.dir.subtables j).pointer) :
    Apart (m.dir.subtables i).pointer (m.dir.subtables j).pointer := by
  rcases h.entry_cases h₀ hx hpc hi with ⟨-, he⟩ | ⟨-, he⟩ | ⟨k, hk, rfl, hc, he⟩ <;>
    rcases h.entry_cases h₀ hx hpc hj with ⟨-, he'⟩ | ⟨-, he'⟩ | ⟨l, hl, rfl, hc', he'⟩ <;>
    rw [he, he'] at hne ⊢
  · exact absurd rfl hne
  · exact hx.apart
  · exact (h₀.other_apart hx hl hc').symm
  · exact hx.apart.symm
  · exact absurd rfl hne
  · exact (hx.fresh _ hl).symm
  · exact h₀.other_apart hx hk hc
  · exact hx.fresh _ hk
  · have hap := h₀.apart _ (hx.dir ▸ hk) _ (hx.dir ▸ hl)
    rw [← hx.dir] at hap
    exact hap hne

theorem Alone.stored {k : ℕ} (ha : IsSlot (m.dir.subtables i).pointer b k a)
    (hne : m.slot a ≠ .null) : ∃ c, m.block (m.slot a).pointer = some c ∧
      (hash c.storedKey).h0.toNat % 2 ^ (m.dir.subtables i).localDepth =
        i % 2 ^ (m.dir.subtables i).localDepth := by
  have hex := h.exact hpc
  have hold := h₀.stored x.idx (hx.dir ▸ hx.idx_lt)
  rw [← hx.dir] at hold
  rw [hex.block]
  rcases h.entry_cases h₀ hx hpc hi with ⟨hm, he⟩ | ⟨hm, he⟩ | ⟨k, hk, rfl, hc, he⟩ <;>
    rw [he] at ha ⊢
  · have hstay : ¬ x.movesSlot hash m₀ b k := fun hmv => hne (hex.gone b k a ha hmv trivial)
    have hslot := hex.kept b k a ha fun hmc => hstay hmc.1
    have hslot' : m₀.slot a = x.slot₀ m₀ b k := by
      rw [ha.eq]
      rfl
    obtain ⟨c, hcb, hmod⟩ := hold b k a ha (by rwa [hslot', ← hslot])
    rw [hslot', ← hslot] at hcb
    refine ⟨c, hcb, ?_⟩
    rw [hm]
    refine (x.class_cases hmod).resolve_right fun hn => hstay ?_
    rw [Split.movesSlot_iff, ← hslot]
    exact ⟨hne, by simp [movesTo, hcb, hn]⟩
  · rw [hex.copies rfl b k a ha] at hne ⊢
    obtain ⟨l, -, hmv, hl⟩ := Split.exists_of_copies hne
    rw [← hl]
    have hto := (Split.movesSlot_iff.mp hmv).2
    unfold movesTo at hto
    split at hto
    · rename_i c hcb
      exact ⟨c, hcb, (of_decide_eq_true hto).trans hm.symm⟩
    · cases hto
  · have hin := ha.bounds
    have hap := h₀.other_apart hx hk hc
    have hslot := hex.others a ((hx.fresh _ hk).not_inTable hin) fun _ _ hsl => hap.ne ha hsl
    have hst := h₀.stored _ (hx.dir ▸ hk)
    rw [← hx.dir, h₀.mod_other hx] at hst
    rw [hslot] at hne ⊢
    exact hst _ _ a ha hne

end

theorem Alone.extendible : Extendible hash m := by
  refine ⟨(h.control.planned (hpc ▸ rfl)).dir.unlocked, (h.kept hpc).le_max, ?_, ?_,
    fun i hi j hj => h.shared h₀ hx hpc hi hj, fun i hi b hb => h.header h₀ hx hpc hi hb,
    fun i hi j hj => h.apart h₀ hx hpc hi hj, fun i hi b k a => h.stored h₀ hx hpc hi⟩
  · intro i hi
    rcases h.entry_cases h₀ hx hpc hi with ⟨-, he⟩ | ⟨-, he⟩ | ⟨k, hk, rfl, -, he⟩ <;> rw [he]
    · exact h.deep hpc
    · exact h.deep hpc
    · have hle := h₀.localDepth_le _ (hx.dir ▸ hk)
      rw [← hx.dir] at hle
      exact hle.trans (h.kept hpc).le
  · intro i hi
    rcases h.entry_cases h₀ hx hpc hi with ⟨-, he⟩ | ⟨-, he⟩ | ⟨k, hk, rfl, -, he⟩ <;> rw [he]
    have hidle := h₀.idle _ (hx.dir ▸ hk)
    rwa [← hx.dir] at hidle

end

end Fusa.Table

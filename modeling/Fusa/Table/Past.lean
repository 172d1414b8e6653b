import Fusa.Table.ResizeSearch
import Fusa.Table.Search

/-! Directories of the past: `search` with one finds what it finds with the present directory. -/
namespace Fusa.Table

open Nat

/-- The table of an entry of an older directory is still there, for the entry's keys. -/
def Directory.Keeps (D : Directory) (i : ℕ) (e : SubTableEntry) : Prop :=
  ∃ j < 2 ^ D.globalDepth, (D.subtables j).pointer = e.pointer ∧
    e.localDepth ≤ (D.subtables j).localDepth ∧ j % 2 ^ e.localDepth = i % 2 ^ e.localDepth

/-- `d` was once the directory that is now `D`. -/
def Directory.Past (D d : Directory) : Prop :=
  ∀ i < 2 ^ d.globalDepth,
    (d.subtables i).localDepth ≤ d.globalDepth ∧ D.Keeps i (d.subtables i)

variable {x : Split} {hash : Bytes → Hashes} {K : Bytes → Prop} {alloc : ℕ → ℕ} {m₀ m : Memory}
  {r : Resizer} {key : Bytes} {d : Directory} {i : ℕ} {e : SubTableEntry}

theorem Extendible.past (h : Extendible hash m) : m.dir.Past m.dir :=
  fun i hi => ⟨h.localDepth_le i hi, i, hi, rfl, le_refl _, rfl⟩

section
variable (h : Extendible hash m) {j : ℕ} (hj : j < 2 ^ m.dir.globalDepth)
include h hj

theorem Extendible.stale_iff (key : Bytes) (hp : (m.dir.subtables j).pointer = e.pointer) (k : ℕ) :
    m.staleAt hash e key k = true ↔ (m.dir.subtables j).localDepth ≠ e.localDepth ∧
        j % 2 ^ (m.dir.subtables j).localDepth ≠
          (hash key).h0.toNat % 2 ^ (m.dir.subtables j).localDepth := by
  rw [Memory.staleAt, ← hp, h.header j hj _ (bucketNo_lt _ _)]
  simp [stale]

theorem Extendible.entry_pointer (hmod : (hash key).h0.toNat % 2 ^ (m.dir.subtables j).localDepth =
      j % 2 ^ (m.dir.subtables j).localDepth) :
    (m.dir.entry (hash key)).pointer = (m.dir.subtables j).pointer := by
  refine (h.shared j hj _ (Nat.mod_lt _ (Nat.two_pow_pos _)) ?_).1
  rw [mod_mod_of_dvd _ (pow_dvd_pow 2 (h.localDepth_le j hj)), hmod]

theorem Extendible.searchAt_eq_none (hK : Together hash K) (hkeys : ∀ c, m.Stores c → K c.key)
    (hkey : K key) (hmod : (hash key).h0.toNat % 2 ^ (m.dir.subtables j).localDepth ≠
      j % 2 ^ (m.dir.subtables j).localDepth) :
    searchAt hash m (m.dir.subtables j).pointer key = none := by
  refine Option.not_isSome_iff_eq_none.mp fun hs => ?_
  obtain ⟨v, hv⟩ := Option.isSome_iff_exists.mp hs
  obtain ⟨q, hq, b, hb, hr⟩ := searchAt_eq_some hv
  have hsl := isSlot_posAddr (m.dir.subtables j).pointer (hash key) q
  obtain ⟨c, hc, hcm⟩ := h.stored j hj _ _ _ hsl hb.1
  obtain rfl : b = c := Option.some.inj (hb.2.symm.trans hc)
  have hle := (h.localDepth_le j hj).trans h.le_max
  have hsame := congrArg (· % 2 ^ (m.dir.subtables j).localDepth)
    (hK b.key key (hkeys b ⟨j, hj, _, _, _, hsl, hb⟩) hkey (accepts_of_readBlock hr))
  simp only [mod_mod_of_dvd _ (pow_dvd_pow 2 hle)] at hsame
  exact hmod (hsame.symm.trans hcm)

end

theorem Extendible.past_cases (h : Extendible hash m) (hd : m.dir.Past d) (key : Bytes) :
    ((d.entry (hash key)).pointer = (m.dir.entry (hash key)).pointer ∧
      ∀ k, m.staleAt hash (d.entry (hash key)) key k = false) ∨
    ∃ j < 2 ^ m.dir.globalDepth, (m.dir.subtables j).pointer = (d.entry (hash key)).pointer ∧
      (hash key).h0.toNat % 2 ^ (m.dir.subtables j).localDepth ≠
        j % 2 ^ (m.dir.subtables j).localDepth ∧
      ∀ k, m.staleAt hash (d.entry (hash key)) key k = true := by
  obtain ⟨hle, j, hj, hp, hdeep, hmod⟩ := hd (d.index (hash key)) (Nat.mod_lt _ (Nat.two_pow_pos _))
  have hi : d.index (hash key) % 2 ^ (d.entry (hash key)).localDepth =
      (hash key).h0.toNat % 2 ^ (d.entry (hash key)).localDepth :=
    mod_mod_of_dvd _ (pow_dvd_pow 2 hle)
  have hstale := fun k => h.stale_iff (e := d.entry (hash key)) hj key hp k
  by_cases hsuf : (hash key).h0.toNat % 2 ^ (m.dir.subtables j).localDepth =
      j % 2 ^ (m.dir.subtables j).localDepth
  · refine .inl ⟨hp.symm.trans (h.entry_pointer hj hsuf).symm, fun k => ?_⟩
    refine Bool.eq_false_of_not_eq_true fun hs => ?_
    exact ((hstale k).mp hs).2 hsuf.symm
  · have hne : (m.dir.subtables j).localDepth ≠ (d.entry (hash key)).localDepth := by
      intro heq
      refine hsuf ?_
      rw [heq, ← hi]
      exact hmod.symm
    exact .inr ⟨j, hj, hp, hsuf, fun k => (hstale k).mpr ⟨hne, fun heq => hsuf heq.symm⟩⟩

/-- With a directory of the past, `search` finds what it finds with the present one. -/
theorem Extendible.search_past (h : Extendible hash m) (hK : Together hash K)
    (hkeys : ∀ c, m.Stores c → K c.key) (hkey : K key) (hd : m.dir.Past d) :
    search hash m d key = search hash m m.dir key := by
  rw [search_eq_searchAt, search]
  rcases h.past_cases hd key with ⟨hp, hfresh⟩ | ⟨j, hj, hp, hsuf, hst⟩
  · rw [← hp]
    cases searchAt hash m (d.entry (hash key)).pointer key with
    | some v => rfl
    | none => simp [hfresh]
  · have hany : ((List.range 4).any fun k => m.staleAt hash (d.entry (hash key)) key k) = true :=
      List.any_eq_true.mpr ⟨0, by decide, hst 0⟩
    have hnone := h.searchAt_eq_none hj hK hkeys hkey hsuf
    rw [hp] at hnone
    rw [hnone, if_pos hany]

/-- `search` reads the directory at most once more. -/
theorem slowSearch_rereads (hash : Bytes → Hashes) (m : Memory) (d : Directory) (key : Bytes) :
    (slowSearch hash m d key).rereads ≤ 1 := by
  unfold slowSearch
  dsimp only
  split
  · exact zero_le _
  · split
    · exact le_refl _
    · exact zero_le _

/-! ### Directories read before and during a split -/

structure Split.Midway (x : Split) (d : Directory) : Prop where
  depth_le : x.depth ≤ d.globalDepth
  entries : ∀ i < 2 ^ d.globalDepth, i % 2 ^ x.depth = x.oldSuffix →
    ∃ l f, d.subtables i = x.entry l f i ∧ (f = true → x.depth < d.globalDepth)
  rest : x.Rest d d.globalDepth
  le : x.dir.globalDepth ≤ d.globalDepth

theorem Alone.midway (h : Alone x hash alloc m₀ m r) (hu : m.dir.locked = false) :
    x.Midway m.dir := by
  obtain ⟨hle, hl⟩ := h.control.listed hu
  have hkept : ∃ c, x.Kept m.dir c m.dir.globalDepth := by
    have hat := h.control.at_pc
    have hrest := h.rest
    cases hpc : r.pc with
    | start =>
      rw [hpc] at hrest
      exact ⟨_, hrest⟩
    | growCas g =>
      rw [hpc] at hat hrest
      rw [hat.2.dir.globalDepth, hat.1]
      exact ⟨_, hrest.2⟩
    | growRead g =>
      rw [hpc] at hat
      cases hu.symm.trans hat.2.locked
    | growWrite g =>
      rw [hpc] at hat
      cases hu.symm.trans hat.1.locked
    | growPublish =>
      rw [hpc] at hat
      cases hu.symm.trans hat.2.2.1
    | size | lockOld | lockNew =>
      rw [hpc] at hat hrest
      rw [hat.dir.globalDepth]
      exact ⟨_, hrest⟩
    | _ =>
      rw [(h.control.planned (hpc ▸ rfl)).dir.globalDepth]
      rw [hpc] at hrest
      exact ⟨_, hrest⟩
  obtain ⟨c, hkept⟩ := hkept
  refine ⟨hle, fun i hi hc => ⟨_, _, hl.entries i hi hc, fun hf => ?_⟩, hkept.dir, hkept.le⟩
  have hlate := Split.early_of_fixed hf
  have hlt := h.control.deep (ResizePc.sizing_of_early hlate)
  rw [(h.control.planned hlate).dir.globalDepth]
  refine (Nat.pow_lt_pow_iff_right (by decide : 1 < 2)).mp (lt_of_le_of_lt ?_ hlt)
  exact Nat.le_add_left _ _

section
variable (h : Alone x hash alloc m₀ m r) (hpc : r.pc = .returned)
include h hpc

theorem Alone.oldSuffix_lt : x.oldSuffix < 2 ^ m.dir.globalDepth :=
  x.oldSuffix_lt.trans (Nat.pow_lt_pow_right (by decide) (h.deep hpc))

theorem Alone.keeps_old (hp : e.pointer = x.oldTable) (hd : e.localDepth ≤ x.depth + 1)
    (hi : i % 2 ^ e.localDepth = x.oldSuffix % 2 ^ e.localDepth) : m.dir.Keeps i e := by
  have he := h.entry_class hpc (h.oldSuffix_lt hpc) x.oldSuffix_class
  rw [x.tableOf_of_old x.oldSuffix_mod] at he
  exact ⟨x.oldSuffix, h.oldSuffix_lt hpc, by rw [he, hp], by rw [he]; exact hd, hi.symm⟩

theorem Alone.keeps_new (hp : e.pointer = x.newTable) (hd : e.localDepth = x.depth + 1)
    (hi : i % 2 ^ (x.depth + 1) = x.newSuffix) : m.dir.Keeps i e := by
  have hlt : x.newSuffix < 2 ^ m.dir.globalDepth := by
    rw [h.globalDepth_eq hpc]
    exact h.control.deep (hpc ▸ rfl)
  have he := h.entry_class hpc hlt x.newSuffix_class
  rw [x.tableOf_of_new x.newSuffix_mod] at he
  refine ⟨x.newSuffix, hlt, by rw [he, hp], by rw [he, hd], ?_⟩
  rw [hd, hi, x.newSuffix_mod]

theorem Alone.keeps_other {j : ℕ} (hj : j < 2 ^ x.dir.globalDepth)
    (hc : j % 2 ^ x.depth ≠ x.oldSuffix) (hp : (x.dir.subtables j).pointer = e.pointer)
    (hd : e.localDepth ≤ (x.dir.subtables j).localDepth)
    (hi : j % 2 ^ e.localDepth = i % 2 ^ e.localDepth) : m.dir.Keeps i e := by
  have hlt : j < 2 ^ m.dir.globalDepth :=
    hj.trans_le (Nat.pow_le_pow_right (by decide) (h.kept hpc).le)
  have he := h.entry_other hpc hlt hc
  rw [mod_eq_of_lt hj] at he
  exact ⟨j, hlt, by rw [he, hp], by rw [he]; exact hd, hi⟩

variable (h₀ : Extendible hash m₀) (hx : Splittable x m₀)
include h₀ hx

theorem Alone.past (hd : m₀.dir.Past d) : m.dir.Past d := by
  intro i hi
  obtain ⟨hle, j, hj, hp, hdeep, hmod⟩ := hd i hi
  rw [← hx.dir] at hj hp hdeep
  refine ⟨hle, ?_⟩
  by_cases hc : j % 2 ^ x.depth = x.oldSuffix
  · rw [h₀.class_entry hx hj hc] at hp hdeep
    have hdeep : (d.subtables i).localDepth ≤ x.depth := hdeep
    refine h.keeps_old hpc hp.symm (hdeep.trans (le_succ _)) ?_
    rw [← hmod, ← hc, mod_mod_of_dvd _ (pow_dvd_pow 2 hdeep)]
  · exact h.keeps_other hpc hj hc hp hdeep hmod

theorem Alone.past_midway (hd : x.Midway d) : m.dir.Past d := by
  intro i hi
  by_cases hc : i % 2 ^ x.depth = x.oldSuffix
  · obtain ⟨l, f, he, hf⟩ := hd.entries i hi hc
    rw [he]
    cases f with
    | false =>
      exact ⟨hd.depth_le, h.keeps_old hpc rfl (le_succ _) (hc.trans x.oldSuffix_class.symm)⟩
    | true =>
      refine ⟨hf rfl, ?_⟩
      rcases x.class_cases hc with ho | hn
      · exact h.keeps_old hpc (x.tableOf_of_old ho) (le_refl _) (ho.trans x.oldSuffix_mod.symm)
      · exact h.keeps_new hpc (x.tableOf_of_new hn) rfl hn
  · have hlt : i % 2 ^ x.dir.globalDepth < 2 ^ x.dir.globalDepth :=
      Nat.mod_lt _ (Nat.two_pow_pos _)
    have hle := h₀.localDepth_le _ (hx.dir ▸ hlt)
    rw [← hx.dir] at hle
    rw [hd.rest i hi hc]
    refine ⟨hle.trans hd.le, h.keeps_other hpc hlt ?_ rfl (le_refl _) (h₀.mod_other hx i i)⟩
    rwa [h₀.mod_class hx]

end

end Fusa.Table

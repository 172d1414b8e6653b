import Mathlib.Algebra.BigOperators.Group.Finset.Piecewise
import Mathlib.Order.Interval.Finset.Nat

/-! Open addressing with linear probing around the end of a table, without deletions. -/
namespace Probing
open Function List Option
variable {α : Type*} [Zero α] [DecidableEq α]

/-- The first free cell from `h` on, around the end of the table. A free cell holds `0`. -/
def probe (n : ℕ) (T : ℕ → α) (h : ℕ) : Option ℕ :=
  ((List.range' h n).find? fun i => T (i % n) = 0).map (· % n)

def place (n : ℕ) (home : α → ℕ) (T : ℕ → α) (q : α) : Option (ℕ × (ℕ → α)) :=
  (probe n T (home q)).map fun i => (i, Function.update T i q)

/-- Place the keys one after the other; the indices and the last table. -/
def placeAll (n : ℕ) (home : α → ℕ) : (ℕ → α) → List α → Option (List ℕ × (ℕ → α))
  | T, [] => some ([], T)
  | T, q :: qs => do
    let (i, T') ← place n home T q
    let (is, T'') ← placeAll n home T' qs
    return (i :: is, T'')

variable {n : ℕ} {home : α → ℕ} {T T' : ℕ → α} {h i : ℕ} {q : α} {qs : List α} {is : List ℕ}

theorem probe_spec (hh : h < n) (hp : probe n T h = some i) :
    i < n ∧ T i = 0 ∧ (h ≤ i → ∀ j, h ≤ j → j < i → T j ≠ 0) ∧
      (i < h → ∀ j, h ≤ j → j < n → T j ≠ 0) := by
  obtain ⟨m, hm, rfl⟩ := map_eq_some_iff.mp hp
  obtain ⟨hz, hmem, hbefore⟩ := List.find?_range'_eq_some.mp hm
  simp only [decide_eq_true_eq] at hz
  have hb : ∀ j, h ≤ j → j < m → T (j % n) ≠ 0 := by simpa using hbefore
  have hr : h ≤ m ∧ m < h + n := mem_range'_1.mp hmem
  refine ⟨Nat.mod_lt _ (by omega), hz, fun hi j hj hjm => ?_, fun hi j hj hjn => ?_⟩
  · have hmn : m < n := by
      by_contra hge
      rw [Nat.mod_eq_sub_mod (by omega), Nat.mod_eq_of_lt (by omega)] at hi
      omega
    rw [Nat.mod_eq_of_lt hmn] at hjm
    simpa [Nat.mod_eq_of_lt (Nat.lt_trans hjm hmn)] using hb j hj hjm
  · have hmn : n ≤ m := by
      by_contra hlt
      rw [Nat.mod_eq_of_lt (by omega)] at hi
      omega
    simpa [Nat.mod_eq_of_lt hjn] using hb j hj (by omega)

theorem probe_isSome (hh : h < n) (hf : ∃ i < n, T i = 0) : (probe n T h).isSome := by
  obtain ⟨i, hi, hz⟩ := hf
  rw [probe, isSome_map, List.find?_isSome]
  by_cases hle : h ≤ i
  · exact ⟨i, mem_range'_1.mpr (by omega), by simp [Nat.mod_eq_of_lt hi, hz]⟩
  · exact ⟨i + n, mem_range'_1.mpr (by omega), by simp [Nat.mod_eq_of_lt hi, hz]⟩

theorem place_eq_some (hp : place n home T q = some (i, T')) :
    probe n T (home q) = some i ∧ T' = update T i q := by
  obtain ⟨j, hj, he⟩ := map_eq_some_iff.mp hp
  obtain ⟨rfl, rfl⟩ := Prod.mk.inj he
  exact ⟨hj, rfl⟩

theorem placeAll_cons (hp : placeAll n home T (q :: qs) = some (is, T')) :
    ∃ i is', is = i :: is' ∧ probe n T (home q) = some i ∧
      placeAll n home (update T i q) qs = some (is', T') := by
  simp only [placeAll, Option.bind_eq_bind, Option.pure_def] at hp
  obtain ⟨⟨i, T₁⟩, h₁, hp⟩ := Option.bind_eq_some_iff.mp hp
  obtain ⟨⟨is', T₂⟩, h₂, hp⟩ := Option.bind_eq_some_iff.mp hp
  obtain ⟨hi, rfl⟩ := place_eq_some h₁
  cases hp
  exact ⟨i, is', rfl, hi, h₂⟩

theorem placeAll_length (hp : placeAll n home T qs = some (is, T')) : is.length = qs.length := by
  induction qs generalizing T is with
  | nil =>
    cases hp
    rfl
  | cons q qs ih =>
    obtain ⟨i, is', rfl, -, h⟩ := placeAll_cons hp
    simp [ih h]

def load (n : ℕ) (home : α → ℕ) (T : ℕ → α) (k : ℕ) : ℕ :=
  ((Finset.range n).filter fun i => T i ≠ 0 ∧ k ≤ home (T i)).card

theorem load_update (hi : i < n) (hz : T i = 0) (hq : q ≠ 0) (k : ℕ) :
    load n home (update T i q) k = load n home T k + if k ≤ home q then 1 else 0 := by
  have hrest : ∀ j ∈ (Finset.range n).erase i, update T i q j = T j := fun j hj =>
    update_of_ne (Finset.ne_of_mem_erase hj) q T
  simp only [load, Finset.card_filter]
  rw [← Finset.sum_erase_add _ _ (Finset.mem_range.mpr hi),
    ← Finset.sum_erase_add (Finset.range n) _ (Finset.mem_range.mpr hi)]
  rw [Finset.sum_congr rfl fun j hj => by rw [hrest j hj]]
  simp [hz, hq]

theorem exists_free (hl : load n home T 0 < n) : ∃ i < n, T i = 0 := by
  by_contra hnone
  simp only [not_exists, not_and] at hnone
  have : load n home T 0 = n := by
    rw [load, Finset.filter_true_of_mem fun i hi =>
      ⟨hnone i (Finset.mem_range.mp hi), Nat.zero_le _⟩, Finset.card_range]
  omega

section
variable (hhome : ∀ q, home q < n) (hne : ∀ q ∈ qs, q ≠ 0)
include hhome hne

theorem placeAll_isSome (hl : load n home T 0 + qs.length ≤ n) : (placeAll n home T qs).isSome := by
  induction qs generalizing T with
  | nil => rfl
  | cons q qs ih =>
    rw [length_cons] at hl
    have hfree : load n home T 0 < n := by omega
    obtain ⟨i, hi⟩ := isSome_iff_exists.mp
      (probe_isSome (T := T) (hhome q) (exists_free hfree))
    obtain ⟨hin, hz, -⟩ := probe_spec (hhome q) hi
    have hl' : load n home (update T i q) 0 + qs.length ≤ n := by
      rw [load_update hin hz (hne q (by simp))]
      simp only [Nat.zero_le, if_true]
      omega
    obtain ⟨⟨is, T'⟩, hp⟩ := isSome_iff_exists.mp
      (ih (fun q' hq' => hne q' (mem_cons_of_mem _ hq')) hl')
    simp [placeAll, place, hi, hp]

theorem placeAll_spec (hp : placeAll n home T qs = some (is, T')) :
    is.Nodup ∧ (∀ i ∈ is, i < n ∧ T i = 0) ∧ (∀ p ∈ qs.zip is, T' p.2 = p.1) ∧
      ∀ j, j ∉ is → T' j = T j := by
  induction qs generalizing T is with
  | nil =>
    cases hp
    simp
  | cons q qs ih =>
    obtain ⟨i, is', rfl, hi, hp'⟩ := placeAll_cons hp
    obtain ⟨hin, hz, -⟩ := probe_spec (hhome q) hi
    have hq : q ≠ 0 := hne q (by simp)
    obtain ⟨hnd, hfree, hkeep, hother⟩ := ih (fun q' hq' => hne q' (mem_cons_of_mem _ hq')) hp'
    have hnot : i ∉ is' := fun hm => hq (by simpa using (hfree i hm).2)
    refine ⟨nodup_cons.mpr ⟨hnot, hnd⟩, ?_, ?_, ?_⟩
    · intro j hj
      obtain rfl | hj := mem_cons.mp hj
      · exact ⟨hin, hz⟩
      · have hji : j ≠ i := fun he => hnot (he ▸ hj)
        simpa [hji] using hfree j hj
    · intro p hp
      obtain rfl | hp := mem_cons.mp (zip_cons_cons ▸ hp)
      · simpa using hother i hnot
      · exact hkeep p hp
    · intro j hj
      simp only [mem_cons, not_or] at hj
      rw [hother j hj.2, update_of_ne hj.1]

end

/-- No key lies before its home, and there is no free cell between a key's home and the key. -/
structure Packed (n : ℕ) (home : α → ℕ) (T : ℕ → α) : Prop where
  home_le : ∀ i < n, T i ≠ 0 → home (T i) ≤ i
  full : ∀ i < n, T i ≠ 0 → ∀ j, home (T i) ≤ j → j ≤ i → T j ≠ 0

theorem Packed.update (hT : Packed n home T) (hh : home q < n) (hq : q ≠ 0)
    (hp : probe n T (home q) = some i) (hle : home q ≤ i) : Packed n home (update T i q) := by
  obtain ⟨hin, hz, hfirst, -⟩ := probe_spec hh hp
  constructor
  · intro j hj hne
    by_cases hji : j = i
    · subst hji
      simpa using hle
    · simp only [update_of_ne hji] at hne ⊢
      exact hT.home_le j hj hne
  · intro j hj hne k hk hkj
    by_cases hki : k = i
    · subst hki
      simpa using hq
    · rw [update_of_ne hki]
      by_cases hji : j = i
      · subst hji
        rw [update_self] at hk
        exact hfirst hle k hk (by omega)
      · simp only [update_of_ne hji] at hne hk
        exact hT.full j hj hne k hk hkj

theorem Packed.load_le (hT : Packed n home T) (k : ℕ) : load n home T k ≤ n - k := by
  have hsub : ((Finset.range n).filter fun i => T i ≠ 0 ∧ k ≤ home (T i)) ⊆ Finset.Ico k n := by
    intro i hi
    obtain ⟨hin, hne, hk⟩ := Finset.mem_filter.mp hi
    have := hT.home_le i (Finset.mem_range.mp hin) hne
    exact Finset.mem_Ico.mpr ⟨by omega, Finset.mem_range.mp hin⟩
  simpa [load] using Finset.card_le_card hsub

/-- Above a full run up to the end some `k` has only keys of homes from `k` on behind it. -/
theorem Packed.exists_load_eq (hT : Packed n home T) (hfull : ∀ j, h ≤ j → j < n → T j ≠ 0) :
    ∃ k ≤ h, load n home T k = n - k := by
  classical
  -- `k` is the lowest cell from which on every cell is taken
  have hex : ∃ k, ∀ j, k ≤ j → j < n → T j ≠ 0 := ⟨h, hfull⟩
  refine ⟨Nat.find hex, Nat.find_min' hex hfull, ?_⟩
  have hk := Nat.find_spec hex
  generalize hkdef : Nat.find hex = k at hk
  have hhome : ∀ j, k ≤ j → j < n → k ≤ home (T j) := by
    intro j hj hjn
    by_contra hlt
    have hm := Nat.find_min hex (m := k - 1) (by omega)
    apply hm
    intro j' hj' hjn'
    obtain rfl | hge : j' = k - 1 ∨ k ≤ j' := by omega
    · exact hT.full j hjn (hk j hj hjn) _ (by omega) (by omega)
    · exact hk j' hge hjn'
  have heq : ((Finset.range n).filter fun i => T i ≠ 0 ∧ k ≤ home (T i)) = Finset.Ico k n := by
    ext i
    simp only [Finset.mem_filter, Finset.mem_range, Finset.mem_Ico]
    constructor
    · rintro ⟨hin, hne, hki⟩
      exact ⟨hki.trans (hT.home_le i hin hne), hin⟩
    · rintro ⟨hki, hin⟩
      exact ⟨hin, hk i hki hin, hhome i hki hin⟩
  rw [load, heq, Nat.card_Ico]

/-- No probe runs past the end exactly when no final segment is the home of too many keys. -/
theorem placeAll_unwrapped_iff (hhome : ∀ q, home q < n) (hne : ∀ q ∈ qs, q ≠ 0)
    (hT : Packed n home T) (hp : placeAll n home T qs = some (is, T')) :
    (∀ p ∈ qs.zip is, home p.1 ≤ p.2) ↔
      ∀ k < n, load n home T k + qs.countP (k ≤ home ·) ≤ n - k := by
  induction qs generalizing T is with
  | nil => simpa using fun k _ => hT.load_le k
  | cons q qs ih =>
    obtain ⟨i, is', rfl, hi, hp'⟩ := placeAll_cons hp
    obtain ⟨hin, hz, -, hwrap⟩ := probe_spec (hhome q) hi
    have hq : q ≠ 0 := hne q (by simp)
    by_cases hle : home q ≤ i
    · have hrest := ih (fun q' hq' => hne q' (mem_cons_of_mem _ hq'))
        (hT.update (hhome q) hq hi hle) hp'
      simp only [zip_cons_cons, forall_mem_cons, hle, true_and]
      rw [hrest]
      refine forall₂_congr fun k _ => ?_
      rw [load_update hin hz hq, countP_cons]
      simp only [decide_eq_true_eq]
      omega
    · -- the probe wrapped, so the cells from the home on were all taken
      obtain ⟨k, hk, hload⟩ := hT.exists_load_eq (hwrap (by omega))
      have hkn : k < n := by have := hhome q; omega
      constructor
      · intro hall
        exact absurd (hall (q, i) (by simp)) hle
      · intro hcount
        have hc := hcount k hkn
        rw [hload, countP_cons] at hc
        simp only [hk, decide_true, if_true] at hc
        omega

end Probing

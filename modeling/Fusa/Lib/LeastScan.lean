import Mathlib.Data.List.Sublists

/-! A scan that gathers the accepted positions of a list and keeps the one at the least address. -/
namespace LeastScan
open List

structure Found (ι : Type*) where
  hits : List ι
  least : Option ι

variable {ι : Type*} (addr : ι → ℕ) (accept : ι → Bool)

def Found.push (f : Found ι) (q : ι) : Found ι :=
  match f.least with
  | none => { hits := f.hits ++ [q], least := some q }
  | some p =>
    if addr p = addr q then f
    else { hits := f.hits ++ [q], least := if addr q < addr p then some q else some p }

def scan (l : List ι) : Found ι :=
  l.foldl (fun f q => if accept q then f.push addr q else f) { hits := [], least := none }

def Found.rest [DecidableEq ι] (f : Found ι) : List ι := f.hits.filter (some · ≠ f.least)

structure Gathered (l : List ι) (f : Found ι) : Prop where
  sublist : f.hits.Sublist l
  accepted : ∀ q ∈ f.hits, accept q
  seen : ∀ q ∈ l, accept q → ∃ p ∈ f.hits, addr p = addr q
  least : ∀ p, f.least = some p → p ∈ f.hits ∧ ∀ q ∈ f.hits, q ≠ p → addr p < addr q
  empty : f.least = none → f.hits = []

variable {addr accept} {l : List ι} {f : Found ι} {p q : ι}

theorem Gathered.skip (h : Gathered addr accept l f) (hq : accept q = false) :
    Gathered addr accept (l ++ [q]) f := by
  refine { h with sublist := h.sublist.trans (sublist_append_left l [q]), seen := ?_ }
  intro r hr ha
  rcases mem_append.mp hr with hr | hr
  · exact h.seen r hr ha
  · cases mem_singleton.mp hr
    simp [hq] at ha

theorem Gathered.push (h : Gathered addr accept l f) (hq : accept q) :
    Gathered addr accept (l ++ [q]) (f.push addr q) := by
  have hseen : ∀ g : Found ι, (∀ r ∈ f.hits, r ∈ g.hits) →
      (∃ r ∈ g.hits, addr r = addr q) →
      ∀ r ∈ l ++ [q], accept r → ∃ p ∈ g.hits, addr p = addr r := by
    intro g hfg hg r hr ha
    rcases mem_append.mp hr with hr | hr
    · obtain ⟨p, hp, hpr⟩ := h.seen r hr ha
      exact ⟨p, hfg p hp, hpr⟩
    · cases mem_singleton.mp hr
      exact hg
  have haccept : ∀ r ∈ f.hits ++ [q], accept r := by
    intro r hr
    rcases mem_append.mp hr with hr | hr
    · exact h.accepted r hr
    · cases mem_singleton.mp hr
      exact hq
  unfold Found.push
  cases hl : f.least with
  | none =>
    have he : f.hits = [] := h.empty hl
    refine ⟨h.sublist.append (List.Sublist.refl [q]), haccept, ?_, ?_, by simp⟩
    · exact hseen _ (by simp [he]) ⟨q, by simp, rfl⟩
    · rintro p ⟨⟩
      simp [he]
  | some p =>
    obtain ⟨hp, hlt⟩ := h.least p hl
    by_cases hpq : addr p = addr q
    · simp only [if_pos hpq]
      exact ⟨h.sublist.trans (sublist_append_left l [q]), h.accepted,
        hseen f (fun r hr => hr) ⟨p, hp, hpq⟩, h.least, h.empty⟩
    · simp only [if_neg hpq]
      refine ⟨h.sublist.append (List.Sublist.refl [q]), haccept,
        hseen _ (fun r hr => mem_append_left _ hr) ⟨q, by simp, rfl⟩, ?_, ?_⟩
      · intro r hr
        by_cases hqp : addr q < addr p
        · -- `q` is the new least position, below the old one and so below all others
          simp only [hqp, if_true] at hr
          cases hr
          refine ⟨by simp, fun x hx hne => ?_⟩
          rcases mem_append.mp hx with hx | hx
          · by_cases hxp : x = p
            · exact hxp ▸ hqp
            · exact hqp.trans (hlt x hx hxp)
          · exact absurd (mem_singleton.mp hx) hne
        · simp only [hqp, if_false] at hr
          cases hr
          refine ⟨mem_append_left _ hp, fun x hx hne => ?_⟩
          rcases mem_append.mp hx with hx | hx
          · exact hlt x hx hne
          · cases mem_singleton.mp hx
            omega
      · intro hr
        by_cases hqp : addr q < addr p <;> simp [hqp] at hr

variable (addr accept) in
theorem gathered_scan (l : List ι) : Gathered addr accept l (scan addr accept l) := by
  induction l using List.reverseRecOn with
  | nil => exact ⟨List.Sublist.refl _, by simp [scan], by simp, by simp [scan], by simp [scan]⟩
  | append_singleton l q ih =>
    have hs : scan addr accept (l ++ [q]) =
        if accept q then (scan addr accept l).push addr q else scan addr accept l := by
      simp [scan, foldl_append]
    rw [hs]
    cases hq : accept q with
    | false => simpa using ih.skip hq
    | true => simpa using ih.push hq

variable [DecidableEq ι]

theorem mem_of_mem_rest (hq : q ∈ (scan addr accept l).rest) : q ∈ l ∧ accept q := by
  have hm := mem_of_mem_filter hq
  exact ⟨(gathered_scan addr accept l).sublist.subset hm,
    (gathered_scan addr accept l).accepted q hm⟩

theorem exists_lt_of_mem_rest (hq : q ∈ (scan addr accept l).rest) :
    ∃ p ∈ l, accept p ∧ addr p < addr q := by
  have h := gathered_scan addr accept l
  obtain ⟨hm, hne⟩ := mem_filter.mp hq
  cases hl : (scan addr accept l).least with
  | none => simp [h.empty hl] at hm
  | some p =>
    obtain ⟨hp, hlt⟩ := h.least p hl
    refine ⟨p, h.sublist.subset hp, h.accepted p hp, hlt q hm ?_⟩
    rintro rfl
    simp [hl] at hne

theorem exists_mem_rest (hp : p ∈ l) (hap : accept p) (hq : q ∈ l) (haq : accept q)
    (hpq : addr p < addr q) : ∃ r ∈ (scan addr accept l).rest, addr r = addr q := by
  have h := gathered_scan addr accept l
  obtain ⟨p', hp', hpa⟩ := h.seen p hp hap
  obtain ⟨q', hq', hqa⟩ := h.seen q hq haq
  refine ⟨q', mem_filter.mpr ⟨hq', ?_⟩, hqa⟩
  simp only [ne_eq, decide_not, Bool.not_eq_eq_eq_not, Bool.not_true, decide_eq_false_iff_not]
  intro hl
  obtain ⟨-, hlt⟩ := h.least q' hl.symm
  by_cases hne : p' = q'
  · subst hne
    omega
  · have := hlt p' hp' hne
    omega

theorem rest_eq_nil_iff (hn : l.Nodup) :
    (scan addr accept l).rest = [] ↔ (scan addr accept l).hits.length ≤ 1 := by
  have hg := gathered_scan addr accept l
  rw [Found.rest, filter_eq_nil_iff]
  constructor
  · intro h
    cases hl : (scan addr accept l).least with
    | none => simp [hg.empty hl]
    | some p =>
      have hall : ∀ q ∈ (scan addr accept l).hits, q = p := by
        intro q hq
        have := h q hq
        simpa [hl] using this
      have hnd := hg.sublist.nodup hn
      rw [eq_replicate_of_mem hall] at hnd ⊢
      simpa using nodup_replicate.mp hnd
  · intro h q hq
    cases hl : (scan addr accept l).least with
    | none => simp [hg.empty hl] at hq
    | some p =>
      obtain ⟨hp, -⟩ := hg.least p hl
      obtain ⟨x, hx⟩ := length_eq_one_iff.mp (le_antisymm h (length_pos_of_mem hq))
      rw [hx, mem_singleton] at hp hq
      simp [hp, hq]

theorem length_hits_le_one (hn : l.Nodup)
    (h : ∀ p ∈ l, ∀ q ∈ l, accept p → accept q → addr p = addr q) :
    (scan addr accept l).hits.length ≤ 1 := by
  rw [← rest_eq_nil_iff hn, eq_nil_iff_forall_not_mem]
  intro q hq
  obtain ⟨p, hp, hap, hlt⟩ := exists_lt_of_mem_rest hq
  have hpq := h p hp q (mem_of_mem_rest hq).1 hap (mem_of_mem_rest hq).2
  omega

end LeastScan

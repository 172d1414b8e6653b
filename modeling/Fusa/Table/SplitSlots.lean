import Mathlib.Data.List.GetD
import Fusa.Table.SplitHeaders

/-! Where every slot of a subtable is while `resize` splits it with nothing else running. -/
namespace Fusa.Table
open Function Progress List Nat

section
variable (x : Split) (hash : Bytes → Hashes) (m₀ : Memory)

def Split.slot₀ (i j : ℕ) : Slot := m₀.slot (slotAddr x.oldTable i j)

def Split.movesSlot (i j : ℕ) : Bool :=
  x.slot₀ m₀ i j ≠ .null ∧ movesTo hash m₀.block x.depth x.newSuffix (x.slot₀ m₀ i j)

def Split.movers (i k : ℕ) : List ℕ := (List.range k).filter (x.movesSlot hash m₀ i)

def Split.copies (i k : ℕ) : List Slot := (x.movers hash m₀ i k).map (x.slot₀ m₀ i)

end

def Progress.reached : Progress → ℕ → ℕ
  | .before, _ | .lost, _ => 0
  | .bucket k, i => if i < k then kAssociatedWays else 0
  | .copy k j _ _, i => if i < k then kAssociatedWays else if i = k then j else 0
  | .clear k _, i => if i ≤ k then kAssociatedWays else 0
  | .after, _ => kAssociatedWays

def InTable (base a : ℕ) : Prop := base ≤ a ∧ a < base + bucketBytes * kTotalBuckets

section
variable (x : Split) (hash : Bytes → Hashes) (m₀ : Memory)

/-- The loops over `l` go through the pairs of a slot that moves and its copy. -/
def Split.Pairs : Progress → Prop
  | .bucket i => i ≤ kTotalBuckets
  | .copy i j n l =>
    i < kTotalBuckets ∧ j ≤ kAssociatedWays ∧ l = (x.movers hash m₀ i j).zipIdx ∧ n ≤ l.length
  | .clear i l =>
    i < kTotalBuckets ∧ ∃ k, l = (x.movers hash m₀ i kAssociatedWays).zipIdx.drop k
  | .lost => False
  | .before | .after => True

/-- The slots, the snapshot `old` and the buffer `new`, as `m₀` before the split determines them. -/
structure Exact (m : Memory) (p : Progress) (written : Bool) (old new : ℕ → ℕ → Slot) : Prop where
  block : m.block = m₀.block
  others : ∀ a, ¬ InTable x.newTable a → (∀ i j, ¬ IsSlot x.oldTable i j a) →
    m.slot a = m₀.slot a
  kept : ∀ i j a, IsSlot x.oldTable i j a → ¬ (x.movesSlot hash m₀ i j ∧ p.cleared i j) →
    m.slot a = x.slot₀ m₀ i j
  gone : ∀ i j a, IsSlot x.oldTable i j a → x.movesSlot hash m₀ i j → p.cleared i j →
    m.slot a = .null
  copies : written → ∀ i n a, IsSlot x.newTable i n a →
    m.slot a = (x.copies hash m₀ i (p.reached i)).getD n .null
  snapshot : p.active → ∀ i < kTotalBuckets, ∀ j < kAssociatedWays, ¬ p.cleared i j →
    old i j = x.slot₀ m₀ i j
  buffer : p.active → ∀ i < kTotalBuckets, ∀ n,
    (x.copies hash m₀ i (p.reached i)).length ≤ n → new i n = .null
  pairs : x.Pairs hash m₀ p

end

variable {x : Split} {hash : Bytes → Hashes} {m₀ m m' : Memory} {p p' : Progress} {w w' : Bool}
  {old old' new new' : ℕ → ℕ → Slot} {i j n : ℕ} {l : List (ℕ × ℕ)}

/-! ### The slots that move -/

theorem Split.movesSlot_iff : x.movesSlot hash m₀ i j ↔ x.slot₀ m₀ i j ≠ .null ∧
      movesTo hash m₀.block x.depth x.newSuffix (x.slot₀ m₀ i j) = true := by
  simp [movesSlot]

theorem Split.movers_succ_of_moves (h : x.movesSlot hash m₀ i j) :
    x.movers hash m₀ i (j + 1) = x.movers hash m₀ i j ++ [j] := by
  simp [movers, range_succ, filter_append, h]

theorem Split.movers_succ_of_stays (h : ¬ x.movesSlot hash m₀ i j) :
    x.movers hash m₀ i (j + 1) = x.movers hash m₀ i j := by
  simp [movers, range_succ, filter_append, h]

variable {k : ℕ}

theorem Split.mem_movers : j ∈ x.movers hash m₀ i k ↔ j < k ∧ x.movesSlot hash m₀ i j := by
  simp [movers]

theorem Split.length_movers_le (x : Split) (hash : Bytes → Hashes) (m₀ : Memory) (i k : ℕ) :
    (x.movers hash m₀ i k).length ≤ k :=
  (length_filter_le _ _).trans (length_range ..).le

theorem Split.length_copies (k : ℕ) :
    (x.copies hash m₀ i k).length = (x.movers hash m₀ i k).length := length_map ..

theorem Split.mem_copies {s : Slot} :
    s ∈ x.copies hash m₀ i k ↔ ∃ j < k, x.movesSlot hash m₀ i j ∧ x.slot₀ m₀ i j = s := by
  simp only [copies, mem_map, mem_movers, and_assoc]

theorem Split.copies_getD_mem (h : n < (x.copies hash m₀ i k).length) :
    (x.copies hash m₀ i k).getD n .null ∈ x.copies hash m₀ i k := by
  rw [getD_eq_getElem?_getD, List.getElem?_eq_getElem h]
  exact getElem_mem h

theorem Split.copies_ne_null (h : n < (x.copies hash m₀ i k).length) :
    (x.copies hash m₀ i k).getD n .null ≠ .null := by
  obtain ⟨j, -, hm, he⟩ := mem_copies.mp (copies_getD_mem h)
  rw [← he]
  exact (movesSlot_iff.mp hm).1

theorem Split.exists_of_copies (h : (x.copies hash m₀ i k).getD n .null ≠ .null) :
    ∃ j < k, x.movesSlot hash m₀ i j ∧ x.slot₀ m₀ i j = (x.copies hash m₀ i k).getD n .null := by
  refine mem_copies.mp (copies_getD_mem (not_le.mp fun hle => h ?_))
  exact getD_eq_default _ _ hle

/-! ### Progress -/

theorem Exact.advance (h : Exact x hash m₀ m p w old new) (ha : p.active)
    (hr : ∀ k < kTotalBuckets, x.copies hash m₀ k (p'.reached k) = x.copies hash m₀ k (p.reached k))
    (hc : ∀ k j, p.cleared k j → p'.cleared k j)
    (hm : ∀ k j, k < kTotalBuckets → j < kAssociatedWays → x.movesSlot hash m₀ k j →
      p'.cleared k j → p.cleared k j)
    (hb : ∀ k < kTotalBuckets, ∀ n, (x.copies hash m₀ k (p.reached k)).length ≤ n →
      new' k n = .null) (hp : x.Pairs hash m₀ p') : Exact x hash m₀ m p' w old new' := by
  refine ⟨h.block, h.others, ?_, ?_, ?_, ?_, ?_, hp⟩
  · intro i j a hsl hnot
    exact h.kept i j a hsl fun hmc => hnot ⟨hmc.1, hc i j hmc.2⟩
  · intro i j a hsl hmove hcl
    exact h.gone i j a hsl hmove (hm i j hsl.bucket_lt hsl.slot_lt hmove hcl)
  · intro hw i n a hsl
    rw [hr i hsl.bucket_lt]
    exact h.copies hw i n a hsl
  · intro _ i hi j hj hcl
    exact h.snapshot ha i hi j hj fun hcl' => hcl (hc i j hcl')
  · intro _ i hi n hle
    rw [hr i hi] at hle
    exact hb i hi n hle

theorem Exact.enter (h : Exact x hash m₀ m (.bucket i) w old new) (hi : i < kTotalBuckets) :
    Exact x hash m₀ m (.copy i 0 0 []) w old new := by
  refine h.advance trivial ?_ ?_ ?_ (h.buffer trivial) ⟨hi, zero_le _, rfl, le_refl _⟩
  · intro k _
    simp [reached]
  · exact fun k j hc => hc
  · exact fun k j _ _ _ hc => hc

section
variable (h : Exact x hash m₀ m (.copy i j n l) w old new)
include h

theorem Exact.skip (hj : j < kAssociatedWays) (hm : ¬ x.movesSlot hash m₀ i j) :
    Exact x hash m₀ m (.copy i (j + 1) 0 l) w old new := by
  obtain ⟨hi, -, hl, -⟩ := h.pairs
  have hmov := x.movers_succ_of_stays hm
  refine h.advance trivial ?_ ?_ ?_ (h.buffer trivial) ⟨hi, hj, by rw [hmov, hl], zero_le _⟩
  · intro k _
    by_cases hk : k = i
    · subst hk
      simp [reached, Split.copies, hmov]
    · simp [reached, hk]
  · exact fun k j hc => hc
  · exact fun k j _ _ _ hc => hc

theorem Exact.length_copies :
    (x.copies hash m₀ i ((Progress.copy i j n l).reached i)).length = l.length := by
  obtain ⟨-, -, hl, -⟩ := h.pairs
  simp [reached, Split.length_copies, hl]

theorem Exact.room (hj : j < kAssociatedWays) : n < kAssociatedWays := by
  obtain ⟨-, -, hl, hn⟩ := h.pairs
  have := x.length_movers_le hash m₀ i j
  rw [hl, length_zipIdx] at hn
  omega

theorem Exact.probe (hn : n < l.length) (s : Slot) : Exact x hash m₀ m (.copy i j (n + 1) l) w old
      (update new i (update (new i) n s)) := by
  obtain ⟨hi, hj, hl, -⟩ := h.pairs
  refine h.advance trivial (fun _ _ => rfl) (fun _ _ hc => hc) (fun _ _ _ _ _ hc => hc) ?_
    ⟨hi, hj, hl, hn⟩
  intro k hk n' hle
  have hbuf := h.buffer trivial k hk n' hle
  by_cases hki : k = i
  · subst hki
    rw [h.length_copies] at hle
    simpa [update_of_ne (by omega : n' ≠ n)] using hbuf
  · simpa [update_of_ne hki] using hbuf

end

theorem Exact.copyDone (h : Exact x hash m₀ m (.copy i kAssociatedWays n l) w old new) :
    Exact x hash m₀ m (.clear i l) w old new := by
  obtain ⟨hi, -, hl, -⟩ := h.pairs
  refine h.advance trivial ?_ ?_ ?_ (h.buffer trivial) ⟨hi, 0, hl⟩
  · intro k _
    rcases lt_trichotomy k i with hk | hk | hk
    · simp [reached, hk, hk.le]
    · simp [reached, hk]
    · simp [reached, hk.not_gt, hk.not_ge, hk.ne']
  · exact fun k j hc => .inl hc
  · rintro k j - hj hm (hc | ⟨rfl, hc⟩)
    · exact hc
    · refine absurd ?_ hc
      rw [hl, zipIdx_map_fst]
      exact Split.mem_movers.mpr ⟨hj, hm⟩

theorem Exact.clearDone (h : Exact x hash m₀ m (.clear i []) w old new) :
    Exact x hash m₀ m (.bucket (i + 1)) w old new := by
  refine h.advance trivial ?_ ?_ ?_ (h.buffer trivial) h.pairs.1
  · intro k _
    simp [reached]
  · rintro k j (hc | ⟨rfl, -⟩)
    · exact hc.trans (lt_succ_self i)
    · exact lt_succ_self k
  · intro k j _ _ _ hc
    simp only [cleared, map_nil, not_mem_nil, not_false_eq_true, and_true] at hc ⊢
    omega

theorem Exact.finish (h : Exact x hash m₀ m (.bucket kTotalBuckets) w old new) :
    Exact x hash m₀ m .after w old new := by
  refine h.advance trivial ?_ ?_ ?_ (h.buffer trivial) trivial
  · intro k hk
    simp [reached, hk]
  · exact fun _ _ _ => trivial
  · exact fun k j hk _ _ _ => hk

/-! ### Changes of one slot -/

section
variable (hap : Apart x.oldTable x.newTable)
include hap

theorem Exact.take (h : Exact x hash m₀ m (.copy i j n l) true old new)
    (hj : j < kAssociatedWays) (hm : x.movesSlot hash m₀ i j)
    (ha : m.slot (slotAddr x.newTable i n) = .null) :
    Exact x hash m₀ { m with slot := update m.slot (slotAddr x.newTable i n) (old i j) }
      (.copy i (j + 1) 0 (l ++ [(j, n)])) true old
      (update new i (update (new i) n .null)) := by
  obtain ⟨hi, -, hl, hn⟩ := h.pairs
  have hsl : IsSlot x.newTable i n (slotAddr x.newTable i n) := ⟨hi, h.room hj, rfl⟩
  have hlen := h.length_copies
  have hold : old i j = x.slot₀ m₀ i j := h.snapshot trivial i hi j hj (by simp [cleared])
  -- the slots before the next copy are in use
  obtain rfl : n = l.length := by
    refine le_antisymm hn (not_lt.mp fun hlt => ?_)
    rw [h.copies rfl i n _ hsl] at ha
    exact Split.copies_ne_null (hlen ▸ hlt) ha
  have hmov := x.movers_succ_of_moves hm
  have hcopies : x.copies hash m₀ i (j + 1) = x.copies hash m₀ i j ++ [x.slot₀ m₀ i j] := by
    simp [Split.copies, hmov]
  have hlen' : (x.copies hash m₀ i j).length = l.length := by
    rw [← hlen]
    simp [reached]
  refine ⟨h.block, ?_, ?_, ?_, ?_, h.snapshot, ?_, hi, hj, ?_, zero_le _⟩
  · intro a hout hno
    have hne : a ≠ slotAddr x.newTable i l.length := by
      rintro rfl
      exact hout hsl.bounds
    exact (update_of_ne hne _ _).trans (h.others a hout hno)
  · intro k j' a hsl' hnot
    have hne : a ≠ slotAddr x.newTable i l.length := by
      rintro rfl
      exact hap.ne hsl' hsl
    exact (update_of_ne hne _ _).trans (h.kept k j' a hsl' hnot)
  · intro k j' a hsl' hmove hcl
    have hne : a ≠ slotAddr x.newTable i l.length := by
      rintro rfl
      exact hap.ne hsl' hsl
    exact (update_of_ne hne _ _).trans (h.gone k j' a hsl' hmove hcl)
  · intro _ k n' a hsl'
    by_cases hki : k = i
    · subst hki
      have hreach : (Progress.copy k (j + 1) 0 (l ++ [(j, l.length)])).reached k = j + 1 := by
        simp [reached]
      rw [hreach, hcopies]
      by_cases hn' : n' = l.length
      · subst hn'
        rw [hsl'.eq]
        simp [hold, ← hlen']
      · have hne : a ≠ slotAddr x.newTable k l.length := by
          rintro rfl
          exact hn' (hsl'.inj hsl).2
        have hprev := h.copies rfl k n' a hsl'
        simp only [update_of_ne hne, hprev, reached, lt_irrefl, if_false, if_true]
        rcases lt_or_gt_of_ne (hlen' ▸ hn' : n' ≠ (x.copies hash m₀ k j).length) with hlt | hgt
        · rw [getD_append _ _ _ _ hlt]
        · rw [getD_eq_default _ _ hgt.le, getD_eq_default _ _ (by rwa [length_append])]
    · have hne : a ≠ slotAddr x.newTable i l.length := by
        rintro rfl
        exact hki (hsl'.inj hsl).1
      simp only [update_of_ne hne]
      have hprev := h.copies rfl k n' a hsl'
      simpa [reached, hki] using hprev
  · intro _ k hk n' hle
    by_cases hki : k = i
    · subst hki
      simp only [reached, lt_irrefl, if_false, if_true, hcopies, length_append,
        hlen', length_singleton] at hle
      rw [update_self, update_of_ne (by omega)]
      exact h.buffer trivial k hk n' (by omega)
    · rw [update_of_ne hki]
      exact h.buffer trivial k hk n' (by simpa [reached, hki] using hle)
  · rw [hmov, hl, zipIdx_append]
    simp

omit hap in
theorem Exact.next_clear (h : Exact x hash m₀ m (.clear i ((j, n) :: l)) w old new) :
    j < kAssociatedWays ∧ x.movesSlot hash m₀ i j ∧ j ∉ l.map Prod.fst ∧
      old i j = x.slot₀ m₀ i j ∧ m.slot (slotAddr x.oldTable i j) = x.slot₀ m₀ i j := by
  obtain ⟨hi, k, hl⟩ := h.pairs
  have hmap : j :: l.map Prod.fst = (x.movers hash m₀ i kAssociatedWays).drop k := by
    rw [← map_cons (f := Prod.fst) (a := (j, n)), hl, map_drop, zipIdx_map_fst]
  have hnd : (j :: l.map Prod.fst).Nodup := by
    rw [hmap]
    exact (nodup_range.filter _).sublist (drop_sublist k _)
  have hmem : j ∈ x.movers hash m₀ i kAssociatedWays := by
    refine mem_of_mem_drop (i := k) ?_
    rw [← hmap]
    exact mem_cons_self
  obtain ⟨hj, hm⟩ := Split.mem_movers.mp hmem
  have hcl : ¬ (Progress.clear i ((j, n) :: l)).cleared i j := by simp [cleared]
  exact ⟨hj, hm, (nodup_cons.mp hnd).1, h.snapshot trivial i hi j hj hcl,
    h.kept i j _ ⟨hi, hj, rfl⟩ fun hc => hcl hc.2⟩

theorem Exact.clear (h : Exact x hash m₀ m (.clear i ((j, n) :: l)) w old new) :
    Exact x hash m₀ { m with slot := update m.slot (slotAddr x.oldTable i j) .null }
      (.clear i l) w old new := by
  obtain ⟨hi, k, hl⟩ := h.pairs
  obtain ⟨hj, hm, hnot, -, -⟩ := h.next_clear
  have hsl : IsSlot x.oldTable i j (slotAddr x.oldTable i j) := ⟨hi, hj, rfl⟩
  have hcl : ∀ k j', (Progress.clear i l).cleared k j' ↔
      (Progress.clear i ((j, n) :: l)).cleared k j' ∨ (k = i ∧ j' = j) := by
    intro k j'
    by_cases hjj : j' = j
    · subst hjj
      simp [cleared, hnot]
    · simp [cleared, hjj]
  refine ⟨h.block, ?_, ?_, ?_, ?_, ?_, h.buffer, hi, k + 1, ?_⟩
  · intro a hout hno
    have hne : a ≠ slotAddr x.oldTable i j := by
      rintro rfl
      exact hno i j hsl
    exact (update_of_ne hne _ _).trans (h.others a hout hno)
  · intro k j' a hsl' hkeep
    rw [hcl] at hkeep
    have hne : a ≠ slotAddr x.oldTable i j := by
      rintro rfl
      obtain ⟨rfl, rfl⟩ := hsl'.inj hsl
      exact hkeep ⟨hm, .inr ⟨rfl, rfl⟩⟩
    exact (update_of_ne hne _ _).trans
      (h.kept k j' a hsl' fun hc => hkeep ⟨hc.1, .inl hc.2⟩)
  · intro k j' a hsl' hmove hc
    by_cases hne : a = slotAddr x.oldTable i j
    · subst hne
      exact update_self ..
    · refine (update_of_ne hne _ _).trans (h.gone k j' a hsl' hmove ?_)
      refine ((hcl k j').mp hc).resolve_right ?_
      rintro ⟨rfl, rfl⟩
      exact hne hsl'.eq
  · intro hw k n' a hsl'
    have hne : a ≠ slotAddr x.oldTable i j := by
      rintro rfl
      exact hap.ne hsl hsl'
    exact (update_of_ne hne _ _).trans (h.copies hw k n' a hsl')
  · intro _ k hk j' hj' hc
    exact h.snapshot trivial k hk j' hj' fun hc' => hc ((hcl k j').mpr (.inl hc'))
  · have hdrop := congrArg List.tail hl
    rwa [tail_cons, tail_drop] at hdrop

theorem Exact.writeTable {hd : Header} (h : Exact x hash m₀ m (.bucket 0) w old new) :
    Exact x hash m₀ (m.writeTable x.newTable hd) (.bucket 0) true old new := by
  have hold : ∀ k j' a, IsSlot x.oldTable k j' a →
      (m.writeTable x.newTable hd).slot a = m.slot a := by
    intro k j' a hsl
    refine if_neg ?_
    have := hsl.bounds
    unfold Apart at hap
    omega
  refine ⟨h.block, ?_, ?_, ?_, ?_, h.snapshot, h.buffer, h.pairs⟩
  · intro a hout hno
    exact (if_neg hout).trans (h.others a hout hno)
  · intro k j' a hsl hnot
    exact (hold k j' a hsl).trans (h.kept k j' a hsl hnot)
  · intro k j' a hsl _ hc
    exact absurd hc (not_lt_zero k)
  · intro _ k n' a hsl
    refine (if_pos hsl.bounds).trans ?_
    simp [reached, Split.copies, Split.movers]

end

theorem Exact.read (h : Exact x hash m₀ m .before w old new) :
    Exact x hash m₀ m (.bucket 0) false (fun i j => m.slot (slotAddr x.oldTable i j))
      fun _ _ => .null := by
  refine ⟨h.block, h.others, ?_, ?_, ?_, ?_, fun _ _ _ _ _ => rfl, zero_le _⟩
  · intro i j a hsl _
    exact h.kept i j a hsl fun hc => hc.2
  · intro i j a _ _ hc
    exact absurd hc (not_lt_zero i)
  · intro hw
    cases hw
  · intro _ i hi j hj _
    exact h.kept i j _ ⟨hi, hj, rfl⟩ fun hc => hc.2

end Fusa.Table

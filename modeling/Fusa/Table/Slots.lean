import Fusa.Table.Split

/-! What the operations of a resize, an update, a remove and an insert do to the slots of a
subtable that is being split. -/
namespace Fusa.Table
open Function List Option Nat

variable {x : Split} {hash : Bytes → Hashes} {K : Bytes → Prop} {m m' : Memory} {p p' : Progress}
  {old new new' : ℕ → ℕ → Slot} {map : Bytes → Option Bytes} {i j n : ℕ} {l : List (ℕ × ℕ)}

/-- The slot at `a` may point to a block with this key. -/
structure Split.Fits (x : Split) (hash : Bytes → Hashes) (K : Bytes → Prop) (a : ℕ) (s : Slot)
    (key : Bytes) : Prop where
  member : x.Member hash key
  used : K key
  fp : s.fp = getFingerprint (hash key).h0
  slot : ∃ i j, (IsSlot x.oldTable i j a ∨ IsSlot x.newTable i j a ∧ x.Moves hash key) ∧
    ∃ k < 4, bucketNo (hash key) k = i

variable {a : ℕ} {b : Block} {s : Slot} {key : Bytes}

section
variable (h : Slots x hash K m p old new map) (hb : m.Holds a b)
include h hb

theorem Slots.used : K b.key := by
  obtain ⟨c, hc, hK⟩ := h.allocated a hb.1
  rwa [hb.unique ⟨hb.1, hc⟩]

theorem Slots.fits (hmem : x.Member hash b.key) (hfp : s.fp = getFingerprint (hash b.key).h0) :
    x.Fits hash K a s b.key := by
  obtain ⟨i, j, hsl⟩ := h.located a b hb hmem
  obtain ⟨hk, -, -⟩ := h.placed i j a b hsl hb
  exact ⟨hmem, h.used hb, hfp, i, j, hsl.imp id fun hn => ⟨hn, h.moved i j a b hn hb⟩, hk⟩

end

/-- A word put into one slot, apart from what it means for the map and the snapshot. -/
theorem Slots.setSlot {a : ℕ} {s : Slot} {map' : Bytes → Option Bytes}
    (hap : Apart x.oldTable x.newTable) (h : Slots x hash K m p old new map)
    (hs : s ≠ .null → ∃ b, m.block s.pointer = some b ∧ x.Fits hash K a s b.key)
    (hrep : CellMap.Represents Block.key Block.value
      (x.Counts hash { m with slot := update m.slot a s } p') map')
    (hun : ∀ i n y, IsSlot x.newTable i n y → p'.unused i n → p.unused i n ∧ y ≠ a)
    (hsnap : p'.active → Snapshot x hash K { m with slot := update m.slot a s } p' old new') :
    Slots x hash K { m with slot := update m.slot a s } p' old new' map' := by
  refine ⟨fun y hy => ?_, fun i j y b hsl hb => ?_, fun i j y b hsl hb => ?_,
    fun y b hb hmem => ?_, hrep, fun i n y hsl hu => ?_, hsnap⟩
  · by_cases hya : y = a
    · subst hya
      simp only [update_self] at hy ⊢
      obtain ⟨b, hb, hf⟩ := hs hy
      exact ⟨b, hb, hf.used⟩
    · simp only [update_of_ne hya] at hy ⊢
      exact h.allocated y hy
  · rcases holds_update.mp hb with ⟨rfl, hne, hb⟩ | ⟨hya, hb⟩
    · obtain ⟨b', hb', hf⟩ := hs hne
      obtain rfl : b = b' := some.inj (hb.symm.trans hb')
      obtain ⟨i', j', hsl', hk⟩ := hf.slot
      have hi : i = i' := by
        rcases hsl with hsl | hsl <;> rcases hsl' with hsl' | ⟨hsl', -⟩
        · exact (hsl.inj hsl').1
        · exact (hap.ne hsl hsl').elim
        · exact (hap.ne hsl' hsl).elim
        · exact (hsl.inj hsl').1
      simp only [update_self]
      exact ⟨hi ▸ hk, hf.fp, hf.member⟩
    · simp only [update_of_ne hya]
      exact h.placed i j y b hsl hb
  · rcases holds_update.mp hb with ⟨rfl, hne, hb⟩ | ⟨-, hb⟩
    · obtain ⟨b', hb', hf⟩ := hs hne
      obtain rfl : b = b' := some.inj (hb.symm.trans hb')
      obtain ⟨i', j', hsl' | ⟨-, hm⟩, -⟩ := hf.slot
      · exact (hap.ne hsl' hsl).elim
      · exact hm
    · exact h.moved i j y b hsl hb
  · rcases holds_update.mp hb with ⟨rfl, hne, hb⟩ | ⟨-, hb⟩
    · obtain ⟨b', -, hf⟩ := hs hne
      obtain ⟨i', j', hsl', -⟩ := hf.slot
      exact ⟨i', j', hsl'.imp id And.left⟩
    · exact h.located y b hb hmem
  · obtain ⟨hu', hya⟩ := hun i n y hsl hu
    simp only [update_of_ne hya]
    exact h.unused i n y hsl hu'

theorem Snapshot.setSlot (h : Snapshot x hash K m p old new)
    (ha : ∀ i j, IsSlot x.oldTable i j a → (x.Moving hash m.block (old i j) → p.cleared i j) ∧ ¬
      x.Moving hash m.block s) :
    Snapshot x hash K { m with slot := update m.slot a s } p old new := by
  refine ⟨h.block, fun i j y hsl hm hc => ?_, fun i j y hsl hm hc => ?_,
    fun i j y b hsl hb hm => ?_, h.buffer, h.ok⟩
  · have hya : y ≠ a := by
      rintro rfl
      exact hc ((ha i j hsl).1 hm)
    simpa only [update_of_ne hya] using h.same i j y hsl hm hc
  · by_cases hya : y = a
    · subst hya
      simpa only [update_self] using (ha i j hsl).2
    · simpa only [update_of_ne hya] using h.gone i j y hsl hm hc
  · rcases holds_update.mp hb with ⟨rfl, hne, hb⟩ | ⟨hya, hb⟩
    · exact absurd ⟨hne, b, hb, hm⟩ (ha i j hsl).2
    · simpa only [update_of_ne hya] using h.seen i j y b hsl hb hm

section
variable (hap : Apart x.oldTable x.newTable)
include hap

/-- An update or remove puts a word into a slot that counts: the map changes at its key. -/
theorem Slots.replace {a : ℕ} {s : Slot} {b : Block} {v : Option Bytes}
    (h : Slots x hash K m p old new map) (hb : m.Holds a b) (hmem : x.Member hash b.key)
    (hrely : ∀ i j, IsSlot x.oldTable i j a → x.Moves hash b.key → p = .before)
    (hs : (s = .null ∧ v = none) ∨ (s ≠ .null ∧ ∃ w, v = some w ∧ m.block s.pointer = some ⟨b.key,
      w⟩ ∧ s.fp = getFingerprint (hash b.key).h0)) :
    Slots x hash K { m with slot := update m.slot a s } p old new
      (update map b.key v) := by
  have hhere : x.Here hash p a b.key := by
    obtain ⟨i, j, hsl | hsl⟩ := h.located a b hb hmem
    · refine .inl ⟨i, j, hsl, ?_⟩
      by_cases hm : x.Moves hash b.key
      · rw [hrely i j hsl hm]
        exact .inr (by simp [Progress.copied])
      · exact .inl hm
    · exact .inr ⟨i, j, hsl⟩
  have hcount : x.Counts hash m p a b := ⟨hb, hhere⟩
  refine h.setSlot hap ?_ ?_ ?_ ?_
  · intro hne
    rcases hs with ⟨hnull, -⟩ | ⟨-, w, -, hw, hfp⟩
    · exact absurd hnull hne
    · exact ⟨⟨b.key, w⟩, hw, h.fits (b := b) hb hmem hfp⟩
  · have hother : ∀ y c, y ≠ a ∧ x.Counts hash m p y c ↔
        x.Counts hash m p y c ∧ c.key ≠ b.key := by
      intro y c
      constructor
      · rintro ⟨hya, hc⟩
        exact ⟨hc, fun hk => hya (h.represents.unique hc hcount hk)⟩
      · rintro ⟨hc, hk⟩
        refine ⟨?_, hc⟩
        rintro rfl
        exact hk (by rw [hc.1.unique hb])
    rcases hs with ⟨rfl, rfl⟩ | ⟨hne, w, rfl, hw, -⟩
    · refine h.represents.drop b.key fun y c => ?_
      rw [← hother, Split.Counts, holds_update]
      simp [Split.Counts, and_assoc]
    · refine h.represents.put a ⟨b.key, w⟩ fun y c => ?_
      rw [← hother, Split.Counts, holds_update]
      simp only [hne, hw, ne_eq, not_false_eq_true, true_and, some.injEq, Split.Counts]
      constructor
      · rintro ⟨⟨rfl, rfl⟩ | ⟨hya, hc⟩, hh⟩
        · exact .inl ⟨rfl, rfl⟩
        · exact .inr ⟨hya, hc, hh⟩
      · rintro (⟨rfl, rfl⟩ | ⟨hya, hc, hh⟩)
        · exact ⟨.inl ⟨rfl, rfl⟩, hhere⟩
        · exact ⟨.inr ⟨hya, hc⟩, hh⟩
  · refine fun i n y hsl hu => ⟨hu, ?_⟩
    rintro rfl
    exact hb.1 (h.unused i n y hsl hu)
  · intro hact
    have hsn := h.snapshot hact
    refine hsn.setSlot fun i j hsl => ?_
    have hstay : ¬ x.Moves hash b.key := by
      intro hm
      rwa [hrely i j hsl hm] at hact
    constructor
    · intro hm
      by_contra hc
      obtain ⟨c, hc', hmc⟩ := hm.2
      rw [← hsn.same i j a hsl hm hc, hb.2] at hc'
      exact hstay (some.inj hc' ▸ hmc)
    · rintro ⟨hne, c, hc, hmc⟩
      rcases hs with ⟨hnull, -⟩ | ⟨-, w, -, hw, -⟩
      · exact hne hnull
      · obtain rfl : ⟨b.key, w⟩ = c := some.inj (hw.symm.trans hc)
        exact hstay hmc

theorem Slots.copySlot (h : Slots x hash K m (.copy i j n l) old new map) (hj : j < kAssociatedWays)
    (hm : x.Moving hash m.block (old i j)) (hnull : m.slot (slotAddr x.newTable i n) = .null) :
    Slots x hash K { m with slot := update m.slot (slotAddr x.newTable i n) (old i j) }
      (.copy i (j + 1) 0 (l ++ [(j, n)])) old
      (update new i (update (new i) n .null)) map := by
  have hs := h.snapshot trivial
  obtain ⟨hi, -, hlen, hn, hnd, hl, hall⟩ := hs.ok
  have hold : IsSlot x.oldTable i j (slotAddr x.oldTable i j) := ⟨hi, hj, rfl⟩
  have hnew : IsSlot x.newTable i n (slotAddr x.newTable i n) := ⟨hi, by omega, rfl⟩
  generalize slotAddr x.oldTable i j = t at hold
  generalize slotAddr x.newTable i n = a at hnew hnull ⊢
  have ht : m.slot t = old i j := hs.same i j t hold hm (by simp [Progress.cleared])
  obtain ⟨hne, b, hb, hmb⟩ := hm
  have htb : m.Holds t b := ⟨ht ▸ hne, ht ▸ hb⟩
  have hcount : x.Counts hash m (.copy i j n l) t b :=
    ⟨htb, .inl ⟨i, j, hold, .inr (by simp [Progress.copied])⟩⟩
  have hunused : ∀ k n' y, IsSlot x.newTable k n' y →
      (Progress.copy i (j + 1) 0 (l ++ [(j, n)])).unused k n' →
      (Progress.copy i j n l).unused k n' ∧ y ≠ a := by
    intro k n' y hsl hu
    simp only [Progress.unused, length_append, length_singleton] at hu ⊢
    refine ⟨by omega, ?_⟩
    rintro rfl
    have := hsl.inj hnew
    omega
  refine h.setSlot hap (fun _ => ⟨b, hb, ?_⟩) (h.represents.relocate a hcount fun y c => ?_)
    hunused fun _ => ?_
  · obtain ⟨hk, hfp, hmem⟩ := h.placed i j t b (.inl hold) htb
    exact ⟨hmem, h.used htb, ht ▸ hfp, i, n, .inr ⟨hnew, hmb⟩, hk⟩
  · -- the copy counts from now on, and the slot copied no longer does
    rw [Split.Counts, holds_update]
    constructor
    · rintro ⟨⟨rfl, -, hc⟩ | ⟨hya, hc⟩, hh⟩
      · exact .inl ⟨rfl, some.inj (hc.symm.trans hb)⟩
      · refine .inr ?_
        have hcc : x.Counts hash m (.copy i j n l) y c := by
          refine ⟨hc, hh.imp ?_ id⟩
          rintro ⟨k, j', hsl, hnot⟩
          refine ⟨k, j', hsl, hnot.imp id fun hnot hcop => hnot ?_⟩
          simp only [Progress.copied] at hcop ⊢
          omega
        refine ⟨hcc, fun hk => ?_⟩
        obtain rfl := h.represents.unique hcc hcount hk
        obtain rfl := hc.unique htb
        rcases hh with ⟨k, j', hsl, hnot⟩ | ⟨k, j', hsl⟩
        · obtain ⟨rfl, rfl⟩ := hsl.inj hold
          simp [hmb, Progress.copied] at hnot
        · exact hap.ne hold hsl
    · rintro (⟨rfl, rfl⟩ | ⟨⟨hc, hh⟩, hk⟩)
      · exact ⟨.inl ⟨rfl, hne, hb⟩, .inr ⟨i, n, hnew⟩⟩
      · refine ⟨.inr ⟨?_, hc⟩, hh.imp ?_ id⟩
        · rintro rfl
          exact hc.1 hnull
        · rintro ⟨k, j', hsl, hnot⟩
          refine ⟨k, j', hsl, ?_⟩
          by_cases hkj : k = i ∧ j' = j
          · obtain ⟨rfl, rfl⟩ := hkj
            obtain rfl : y = t := hsl.eq.trans hold.eq.symm
            exact absurd (by rw [hc.unique htb]) hk
          · refine hnot.imp id fun hnot hcop => hnot ?_
            simp only [Progress.copied] at hcop ⊢
            omega
  · have hs' := hs.setSlot (a := a) (s := old i j) fun k j' hsl => (hap.ne hsl hnew).elim
    refine ⟨hs'.block, hs'.same, hs'.gone, hs'.seen, fun k n' hu => ?_, ?_⟩
    · have hbuf := hs.buffer k n' (by
        simp only [Progress.unused, length_append, length_singleton] at hu ⊢
        omega)
      by_cases hki : k = i
      · subst hki
        have hne' : n' ≠ n := by
          simp only [Progress.unused, length_append, length_singleton] at hu
          omega
        simpa [update_of_ne hne'] using hbuf
      · simpa [update_of_ne hki] using hbuf
    · have hmem : ∀ j', j' ∈ (l ++ [(j, n)]).map Prod.fst ↔ j' ∈ l.map Prod.fst ∨ j' = j := by
        simp
      refine ⟨hi, hj, by simp only [length_append, length_singleton]; omega, by omega, ?_,
        fun q hq => ?_, fun j' hj' hm' => (hmem j').mpr ?_⟩
      · rw [map_append, nodup_append]
        refine ⟨hnd, by simp, fun y hy z hz hyz => ?_⟩
        obtain ⟨q, hq, rfl⟩ := mem_map.mp hy
        have hqj := (hl q hq).1
        simp only [map_cons, map_nil, mem_singleton] at hz
        omega
      · rcases mem_append.mp hq with hq | hq
        · exact ⟨by have := (hl q hq).1; omega, (hl q hq).2⟩
        · obtain rfl := mem_singleton.mp hq
          exact ⟨by omega, hne, b, hb, hmb⟩
      · by_cases hjj : j' = j
        · exact .inr hjj
        · exact .inl (hall j' (by omega) hm')

theorem Slots.clearSlot (h : Slots x hash K m (.clear i ((j, n) :: l)) old new map) :
    m.slot (slotAddr x.oldTable i j) = old i j ∧ old i j ≠ .null ∧
      Slots x hash K { m with slot := update m.slot (slotAddr x.oldTable i j) .null }
        (.clear i l) old new map := by
  have hs := h.snapshot trivial
  obtain ⟨hi, hnd, hl⟩ := hs.ok
  obtain ⟨hj, hm⟩ := hl (j, n) (by simp)
  have hold : IsSlot x.oldTable i j (slotAddr x.oldTable i j) := ⟨hi, hj, rfl⟩
  generalize slotAddr x.oldTable i j = a at hold ⊢
  have ha : m.slot a = old i j := hs.same i j a hold hm (by simp [Progress.cleared])
  refine ⟨ha, hm.1, ?_⟩
  simp only [map_cons, nodup_cons] at hnd
  obtain ⟨hne, b, hb, hmb⟩ := hm
  have hab : m.Holds a b := ⟨ha ▸ hne, ha ▸ hb⟩
  refine h.setSlot hap (fun hne => absurd rfl hne) (h.represents.congr fun y c => ?_)
    (fun k n' y hsl hu => ⟨hu, ?_⟩) fun _ => ?_
  · rw [Split.Counts, holds_update]
    constructor
    · rintro ⟨⟨-, hne, -⟩ | ⟨-, hc⟩, hh⟩
      · exact absurd rfl hne
      · exact ⟨hc, hh⟩
    · rintro ⟨hc, hh⟩
      refine ⟨.inr ⟨?_, hc⟩, hh⟩
      rintro rfl
      obtain rfl := hc.unique hab
      rcases hh with ⟨k, j', hsl, hnot⟩ | ⟨k, j', hsl⟩
      · obtain ⟨rfl, rfl⟩ := hsl.inj hold
        simp [hmb, Progress.copied] at hnot
      · exact hap.ne hold hsl
  · rintro rfl
    exact hap.ne hold hsl
  · refine ⟨hs.block, fun k j' y hsl hm' hc => ?_, fun k j' y hsl hm' hc => ?_,
      fun k j' y c hsl hc hmc => ?_, hs.buffer, hi, hnd.2,
      fun q hq => hl q (mem_cons_of_mem _ hq)⟩
    · simp only [Progress.cleared, not_or, not_and, not_not] at hc
      have hya : y ≠ a := by
        rintro rfl
        obtain ⟨rfl, rfl⟩ := hsl.inj hold
        exact hnd.1 (hc.2 rfl)
      simp only [update_of_ne hya]
      refine hs.same k j' y hsl hm' ?_
      simp only [Progress.cleared, map_cons, mem_cons, not_or, not_and, not_not]
      exact ⟨hc.1, fun hk hjj => hc.2 hk⟩
    · by_cases hya : y = a
      · subst hya
        simp [Split.Moving]
      · simp only [update_of_ne hya]
        refine hs.gone k j' y hsl hm' (hc.imp id fun hc => ⟨hc.1, ?_⟩)
        simp only [map_cons, mem_cons, not_or]
        refine ⟨?_, hc.2⟩
        rintro rfl
        exact hya (hsl.eq.trans (hc.1 ▸ hold.eq.symm))
    · rcases holds_update.mp hc with ⟨-, hne, -⟩ | ⟨hya, hc⟩
      · exact absurd rfl hne
      · simpa only [update_of_ne hya] using hs.seen k j' y c hsl hc hmc

theorem Slots.claim {a : ℕ} {s : Slot} {b : Block} (h : Slots x hash K m p old new map)
    (hnull : m.slot a = .null) (hne : s ≠ .null) (hb : m.block s.pointer = some b)
    (hfits : x.Fits hash K a s b.key) (hmap : map b.key = none) (hhere : x.Here hash p a b.key)
    (hrely : x.Moves hash b.key → ¬ p.active)
    (hused : ∀ i n, IsSlot x.newTable i n a → ¬ p.unused i n) :
    Slots x hash K { m with slot := update m.slot a s } p old new
      (update map b.key (some b.value)) := by
  refine h.setSlot hap (fun _ => ⟨b, hb, hfits⟩) (h.represents.put a b fun y c => ?_)
    (fun i n y hsl hu => ⟨hu, ?_⟩) fun hact => (h.snapshot hact).setSlot fun i j hsl => ⟨?_, ?_⟩
  · rw [Split.Counts, holds_update]
    constructor
    · rintro ⟨⟨rfl, -, hc⟩ | ⟨-, hc⟩, hh⟩
      · exact .inl ⟨rfl, some.inj (hc.symm.trans hb)⟩
      · refine .inr ⟨⟨hc, hh⟩, fun hk => ?_⟩
        have := h.represents.map_key ⟨hc, hh⟩
        rw [hk, hmap] at this
        cases this
    · rintro (⟨rfl, rfl⟩ | ⟨⟨hc, hh⟩, -⟩)
      · exact ⟨.inl ⟨rfl, hne, hb⟩, hhere⟩
      · refine ⟨.inr ⟨?_, hc⟩, hh⟩
        rintro rfl
        exact hc.1 hnull
  · rintro rfl
    exact hused i n hsl hu
  · intro hm
    by_contra hc
    exact hm.1 (((h.snapshot hact).same i j a hsl hm hc).symm.trans hnull)
  · rintro ⟨-, c, hc, hmc⟩
    obtain rfl : b = c := some.inj (hb.symm.trans hc)
    exact hrely hmc hact

theorem Slots.setMoved {a : ℕ} {s : Slot} (h : Slots x hash K m .after old new map)
    (ha : IsSlot x.oldTable i j a) (hold : ∀ b, m.Holds a b → x.Moves hash b.key)
    (hs : s ≠ .null → ∃ b, m.block s.pointer = some b ∧ x.Fits hash K a s b.key ∧ x.Moves hash
      b.key) : Slots x hash K { m with slot := update m.slot a s } .after old new map := by
  have hnot : ∀ b : Block, x.Moves hash b.key → ¬ x.Here hash .after a b.key := by
    rintro b hm (⟨i', j', -, hnot⟩ | ⟨i', j', hsl⟩)
    · simp [hm, Progress.copied] at hnot
    · exact hap.ne ha hsl
  refine h.setSlot hap (fun hne => ?_) (h.represents.congr fun y c => ?_)
    (fun i n y _ hu => absurd hu (by simp [Progress.unused])) (fun hact => hact.elim)
  · obtain ⟨b, hb, hf, -⟩ := hs hne
    exact ⟨b, hb, hf⟩
  · rw [Split.Counts, holds_update]
    constructor
    · rintro ⟨⟨rfl, hne, hc⟩ | ⟨-, hc⟩, hh⟩
      · obtain ⟨b, hb, -, hm⟩ := hs hne
        obtain rfl : b = c := some.inj (hb.symm.trans hc)
        exact absurd hh (hnot b hm)
      · exact ⟨hc, hh⟩
    · rintro ⟨hc, hh⟩
      refine ⟨.inr ⟨?_, hc⟩, hh⟩
      rintro rfl
      exact hnot c (hold c hc) hh

end

/-! ### Steps that change no slot of the two tables -/

theorem Split.moving_congr {block block' : ℕ → Option Block}
    (hs : s ≠ .null → ∃ b, block s.pointer = some b)
    (hb : ∀ q b, block q = some b → block' q = some b) :
    x.Moving hash block' s ↔ x.Moving hash block s := by
  refine and_congr_right fun hne => ?_
  obtain ⟨b, hsb⟩ := hs hne
  simp [hsb, hb _ _ hsb]

section
variable (h : Slots x hash K m p old new map)
include h

/-- Blocks are added, and slots outside the two tables may be cleared. -/
theorem Slots.congr (hslot : ∀ a, m'.slot a ≠ .null → m'.slot a = m.slot a)
    (htab : ∀ i j a, IsSlot x.oldTable i j a ∨ IsSlot x.newTable i j a → m'.slot a = m.slot a)
    (hblock : ∀ q b, m.block q = some b → m'.block q = some b) :
    Slots x hash K m' p old new map := by
  have hholds : ∀ a b, m'.Holds a b → m.Holds a b := by
    intro a b hb
    have ha := hslot a hb.1
    obtain ⟨c, hc, -⟩ := h.allocated a (ha ▸ hb.1)
    have hbc : b = c := some.inj (hb.2.symm.trans (ha ▸ hblock _ _ hc))
    exact ⟨ha ▸ hb.1, hbc ▸ hc⟩
  have hholds' : ∀ i j a b, IsSlot x.oldTable i j a ∨ IsSlot x.newTable i j a → m.Holds a b →
      m'.Holds a b := by
    intro i j a b hsl hb
    rw [Memory.Holds, htab i j a hsl]
    exact ⟨hb.1, hblock _ _ hb.2⟩
  refine ⟨fun a ha => ?_, fun i j a b hsl hb => ?_, fun i j a b hsl hb =>
    h.moved i j a b hsl (hholds a b hb), fun a b hb hmem => h.located a b (hholds a b hb) hmem,
    h.represents.congr fun a b => and_congr_left fun hh => ⟨hholds a b, ?_⟩,
    fun i n a hsl hu => (htab i n a (.inr hsl)).trans (h.unused i n a hsl hu), fun hact => ?_⟩
  · have hm := hslot a ha
    obtain ⟨b, hb, hK⟩ := h.allocated a (hm ▸ ha)
    exact ⟨b, hm ▸ hblock _ _ hb, hK⟩
  · rw [htab i j a hsl]
    exact h.placed i j a b hsl (hholds a b hb)
  · rcases hh with ⟨i, j, hsl, -⟩ | ⟨i, j, hsl⟩
    · exact hholds' i j a b (.inl hsl)
    · exact hholds' i j a b (.inr hsl)
  · have hs := h.snapshot hact
    have hmov : ∀ i j, x.Moving hash m'.block (old i j) ↔ x.Moving hash m.block (old i j) :=
      fun i j => Split.moving_congr (fun hne => (hs.block i j hne).imp fun _ hb => hb.1) hblock
    refine ⟨fun i j hne => ?_, fun i j a hsl hm hc => ?_, fun i j a hsl hm hc => ?_,
      fun i j a b hsl hb hm => ?_, hs.buffer, ?_⟩
    · obtain ⟨b, hb, hK⟩ := hs.block i j hne
      exact ⟨b, hblock _ _ hb, hK⟩
    · rw [htab i j a (.inl hsl)]
      exact hs.same i j a hsl ((hmov i j).mp hm) hc
    · rw [htab i j a (.inl hsl)]
      refine (Split.moving_congr (fun hne => ?_) hblock).not.mpr
        (hs.gone i j a hsl ((hmov i j).mp hm) hc)
      exact (h.allocated a hne).imp fun _ hb => hb.1
    · rw [htab i j a (.inl hsl)]
      exact hs.seen i j a b hsl (hholds a b hb) hm
    · simpa only [hmov] using hs.ok

theorem Slots.same (hs : m'.slot = m.slot) (hb : m'.block = m.block) :
    Slots x hash K m' p old new map :=
  h.congr (fun _ _ => congrFun hs _) (fun _ _ _ _ => congrFun hs _) fun q _ hq =>
    (congrFun hb q).trans hq

theorem Slots.writeBlock {value : Bytes} {pointer : ℕ} (hp : m.block pointer = none) :
    Slots x hash K (m.writeBlock key value pointer) p old new map :=
  h.congr (fun _ _ => rfl) (fun _ _ _ _ => rfl) fun _ _ hb => writeBlock_of_some hp hb

end

theorem Slots.take (h : Slots x hash K m .before old new map) :
    Slots x hash K m (.bucket 0) (fun i j => m.slot (slotAddr x.oldTable i j))
      (fun _ _ => .null) map := by
  refine ⟨h.allocated, h.placed, h.moved, h.located, h.represents.congr fun a b => ?_,
    fun i n a hsl _ => h.unused i n a hsl trivial, fun _ => ⟨fun i j => h.allocated _,
    fun i j a hsl _ _ => by rw [hsl.eq], fun i j a _ _ hc => absurd hc (not_lt_zero i),
    fun i j a b hsl _ _ => by rw [hsl.eq], fun _ _ _ => rfl, zero_le _⟩⟩
  simp [Split.Counts, Split.Here, Progress.copied]

theorem Slots.writeTable {hd : Header} (hap : Apart x.oldTable x.newTable)
    (h : Slots x hash K m (.bucket 0) old new map) :
    Slots x hash K (m.writeTable x.newTable hd) (.bucket 0) old new map := by
  refine h.congr (fun a ha => ?_) (fun i j a hsl => ?_) fun _ _ hb => hb
  · simp only [Memory.writeTable] at ha ⊢
    split at ha
    · exact absurd rfl ha
    · rename_i hout
      rw [if_neg hout]
  · simp only [Memory.writeTable]
    split
    · rename_i hin
      rcases hsl with hsl | hsl
      · have := hsl.bounds
        unfold Apart at hap
        omega
      · exact (h.unused i j a hsl (zero_le i)).symm
    · rfl

/-- `move_bucket` sees from its block whether a slot moves. -/
theorem Snapshot.movesTo_iff (hK : PrefixFree K) (h : Snapshot x hash K m p old new) (i j : ℕ) :
    (old i j = .null ∨ movesTo hash m.block x.depth x.newSuffix (old i j) = false) ↔
      ¬ x.Moving hash m.block (old i j) := by
  by_cases hne : old i j = .null
  · simp [hne, Split.Moving]
  · obtain ⟨b, hb, hkey⟩ := h.block i j hne
    simp [hne, Split.Moving, Split.Moves, movesTo, hb, Block.storedKey,
      strncpy_of_nulFree (hK.nulFree _ hkey)]

/-! ### What `search` finds after the split -/

theorem isSlot_posAddr (base : ℕ) (hs : Hashes) (q : ℕ) :
    IsSlot base (bucketNo hs (q / kAssociatedWays)) (q % kAssociatedWays) (posAddr base hs q) :=
  ⟨bucketNo_lt _ _, mod_lt _ (by decide), rfl⟩

theorem IsSlot.exists_position {base k : ℕ} {hs : Hashes} (h : IsSlot base i j a) (hk : k < 4)
    (hi : bucketNo hs k = i) : ∃ q < 28, a = posAddr base hs q := by
  have hj := h.slot_lt
  refine ⟨kAssociatedWays * k + j, ?_, ?_⟩
  · simp only [kAssociatedWays] at hj ⊢
    omega
  · rw [posAddr, mul_add_div (by decide), div_eq_of_lt hj, mul_add_mod,
      mod_eq_of_lt hj, add_zero, hi, h.eq]

theorem Split.tableOf_of_moves (h : x.Moves hash key) :
    x.tableOf (hash key).h0.toNat = x.newTable := if_pos h

theorem Split.tableOf_of_not_moves (h : ¬ x.Moves hash key) :
    x.tableOf (hash key).h0.toNat = x.oldTable := if_neg h

theorem Split.here_tableOf (h : IsSlot (x.tableOf (hash key).h0.toNat) i j a) :
    x.Here hash p a key := by
  by_cases hm : x.Moves hash key
  · rw [Split.tableOf_of_moves hm] at h
    exact .inr ⟨i, j, h⟩
  · rw [Split.tableOf_of_not_moves hm] at h
    exact .inl ⟨i, j, h, .inl hm⟩

theorem PrefixFree.key_eq (hK : PrefixFree K) (hkey : K key) (hb : K b.key)
    (hr : (readBlock key b).isSome) : b.key = key :=
  hK.eq_of_begins _ _ hb hkey ((readBlock_isSome_iff (hK.nulFree _ hb) key).mp hr)

theorem prefixFree_single {k : Bytes} (h : 0 ∉ k) : PrefixFree (· = k) := by
  refine ⟨?_, ?_⟩
  · rintro k' rfl
    exact h
  · rintro k k' rfl rfl _
    rfl

theorem Slots.searchAt_eq (hK : PrefixFree K) (h : Slots x hash K m .after old new map)
    (hkey : K key) :
    searchAt hash m (x.tableOf (hash key).h0.toNat) key = (map key).map strncpy := by
  cases hs : searchAt hash m (x.tableOf (hash key).h0.toNat) key with
  | some value =>
    obtain ⟨q, -, b, hb, hr⟩ := searchAt_eq_some hs
    obtain rfl : b.key = key := hK.key_eq hkey (h.used hb) (hr ▸ rfl)
    have hcell : x.Counts hash m .after (posAddr _ (hash b.key) q) b :=
      ⟨hb, x.here_tableOf (isSlot_posAddr _ _ q)⟩
    rw [h.represents.map_key hcell]
    exact hr.symm.trans (readBlock_self b)
  | none =>
    cases hv : map key with
    | none => rfl
    | some v =>
      obtain ⟨a, b, ⟨hb, hh⟩, rfl, -⟩ := h.represents.exists_cell hv
      have hsl : ∃ i j, IsSlot (x.tableOf (hash b.key).h0.toNat) i j a ∧
          (IsSlot x.oldTable i j a ∨ IsSlot x.newTable i j a) := by
        rcases hh with ⟨i, j, hsl, hnot⟩ | ⟨i, j, hsl⟩
        · have hm : ¬ x.Moves hash b.key := by simpa [Progress.copied] using hnot
          exact ⟨i, j, by rwa [Split.tableOf_of_not_moves hm], .inl hsl⟩
        · have hm := h.moved i j a b hsl hb
          exact ⟨i, j, by rwa [Split.tableOf_of_moves hm], .inr hsl⟩
      obtain ⟨i, j, hhome, hsl⟩ := hsl
      obtain ⟨⟨k, hk, hi⟩, hfp, -⟩ := h.placed i j a b hsl hb
      obtain ⟨q, hq, rfl⟩ := hhome.exists_position hk hi
      have := searchAt_isSome hq hb hfp (by rw [readBlock_self]; rfl)
      rw [hs] at this
      cases this

end Fusa.Table

import Fusa.Lib.Transition
import Mathlib.Data.Nat.ModEq

/-! The set of free addresses that `mlx5_vfio.c` allocates from. -/
namespace Fusa.Driver.Iset
open Transition Nat

structure Range where
  start : UInt64
  length : UInt64

/-- The last address; the range of all addresses has length 0. -/
def Range.last (r : Range) : UInt64 := r.start + r.length - 1

def rangeOverlap (s1 len1 s2 len2 : UInt64) : Bool :=
  ¬ (s1 < s2 ∧ s1 + len1 - 1 < s2 ∨ s1 > s2 ∧ s1 > s2 + len2 - 1)

/-- The list from `p` on where the new range is combined with `p` or with the first of `l`. -/
def checkDoCombine (p : Option Range) (l : List Range) (start length : UInt64) :
    Option (List Range) :=
  match p.filter fun p => p.start + p.length = start,
    l.head?.filter fun n => start + length = n.start with
  | some p, some n => some (⟨p.start, p.length + length + n.length⟩ :: l.tail)
  | some p, none => some (⟨p.start, p.length + length⟩ :: l)
  | none, some n => some (p.toList ++ ⟨start, n.length + length⟩ :: l.tail)
  | none, none => none

/-- After the loop of `iset_insert_range`, which ends between `prev` and `l`. -/
def place (start length : UInt64) (prev : Option Range) (l : List Range) : List Range :=
  (checkDoCombine prev l start length).getD (prev.toList ++ ⟨start, length⟩ :: l)

/-- The loop, with what the list has from `prev` on. -/
def insertFrom (start length : UInt64) (prev : Option Range) : List Range → Option (List Range)
  | [] => some (place start length prev [])
  | r :: l =>
    if rangeOverlap r.start r.length start length then none
    else if r.start > start then some (place start length prev (r :: l))
    else (insertFrom start length (some r) l).map (prev.toList ++ ·)

variable (s : List Range)

def insertRange (start length : UInt64) : Option (List Range) :=
  if length = 0 ∨ start + length - 1 < start then none else insertFrom start length none s

def powerOfTwo (x : UInt64) : Bool := x ≠ 0 ∧ x &&& (x - 1) = 0

def align (val align : UInt64) : UInt64 := (val + align - 1) &&& ~~~ (align - 1)

/-- What is left of `r`, in four cases. -/
def Range.take (r : Range) (astart length : UInt64) : List Range :=
  if r.start = astart then
    if r.length = length then [] else [⟨r.start + length, r.length - length⟩]
  else if astart + length = r.start + r.length then [⟨r.start, astart - r.start⟩]
  else
    [⟨r.start, astart - r.start⟩, ⟨astart + length, r.start + r.length - astart - length⟩]

/-- The loop of `iset_alloc_range`: the address and the set without the range. -/
def allocFrom (length alignment : UInt64) : List Range → Option (UInt64 × List Range)
  | [] => none
  | r :: l =>
    let astart := align r.start alignment
    if astart + length - 1 ≥ astart ∧ astart + length - 1 ≤ r.start + r.length - 1 then
      some (astart, r.take astart length ++ l)
    else (allocFrom length alignment l).map fun (a, l) => (a, r :: l)

inductive Errno
  | einval
  | enospc

def allocRange (length alignment : UInt64) :
    Except Errno (UInt64 × List Range) :=
  if powerOfTwo alignment then (allocFrom length alignment s).elim (.error .enospc) .ok
  else .error .einval

inductive Call
  | insert (start length : UInt64)
  | alloc (length alignment : UInt64)

def system : System (List Range) Call where
  start s := s = []
  next s
    | .insert start length => some ((insertRange s start length).getD s)
    | .alloc length alignment => some (((allocRange s length alignment).map (·.2)).toOption.getD s)

/-! ### The set of addresses -/

def Range.Has (r : Range) (a : UInt64) : Prop := r.start ≤ a ∧ a ≤ r.last

def Free (a : UInt64) : Prop := ∃ r ∈ s, r.Has a

/-- Sorted, disjoint and never adjacent, and no range wraps. -/
structure Exact (s : List Range) : Prop where
  range : ∀ r ∈ s, r.start ≤ r.last
  sorted : s.Pairwise fun p q => p.last < q.start ∧ p.last + 1 < q.start

/-- The addresses of `s` are those of `r` and of `t`, each in one of them. -/
def Parts (r : Range) (t : List Range) : Prop :=
  ∀ a, (Free s a ↔ r.Has a ∨ Free t a) ∧ ¬ (r.Has a ∧ Free t a)

def Inserted (r : Range) : Option (List Range) → Prop
  | none => r.length = 0 ∨ r.last < r.start ∨ ∃ a, Free s a ∧ r.Has a
  | some t => Exact t ∧ r.start ≤ r.last ∧ Parts t r s

def Allocated (length alignment : UInt64) :
    Except Errno (UInt64 × List Range) → Prop
  | .error .einval => ¬ powerOfTwo alignment
  | .error .enospc => ∀ r ∈ s, ∀ a, a % alignment = 0 → a ≤ a + length - 1 → r.start ≤ a →
      r.last < a + length - 1
  | .ok (start, t) => Exact t ∧ start % alignment = 0 ∧ start ≤ start + length - 1 ∧
      Parts s ⟨start, length⟩ t

/-- The loop comes to no range whose start rounds up to 2^64 and which reaches past `length`. -/
def Unwrapped : Call → Prop
  | .insert .. => True
  | .alloc length alignment => ∀ l r t, s = l ++ r :: t → allocFrom length alignment l = none →
      r.start.toNat + alignment.toNat ≤ 2 ^ 64 ∨ r.last < length - 1

variable {s l t : List Range} {p r n : Range} {length alignment a : UInt64}

@[simp] theorem free_nil : ¬ Free [] a := by simp [Free]

@[simp] theorem free_cons : Free (r :: l) a ↔ r.Has a ∨ Free l a := by simp [Free]

theorem exact_cons : Exact (r :: l) ↔
    r.start ≤ r.last ∧ Exact l ∧ ∀ a, Free l a → r.last < a ∧ r.last + 1 < a := by
  constructor
  · rintro ⟨hr, hs⟩
    rw [List.pairwise_cons] at hs
    refine ⟨hr r (by simp), ⟨fun q hq => hr q (by simp [hq]), hs.2⟩, ?_⟩
    rintro a ⟨q, hq, ha, -⟩
    have := hs.1 q hq
    grind
  · rintro ⟨hr, ⟨hl, hs⟩, hf⟩
    refine ⟨by simpa [hr] using hl, List.pairwise_cons.mpr ⟨fun q hq => ?_, hs⟩⟩
    exact hf q.start ⟨q, hq, UInt64.le_refl _, hl q hq⟩

theorem Exact.free_start (h : Exact (r :: l)) : Free (r :: l) r.start :=
  ⟨r, by simp, UInt64.le_refl _, (exact_cons.mp h).1⟩

theorem Exact.start_le (h : Exact (r :: l)) (ha : Free (r :: l) a) : r.start ≤ a := by
  obtain ⟨hr, -, hf⟩ := exact_cons.mp h
  rcases free_cons.mp ha with ha | ha
  · exact ha.1
  · have := hf a ha
    grind

theorem rangeOverlap_iff (hr : r.start ≤ r.last) (hn : n.start ≤ n.last) :
    rangeOverlap r.start r.length n.start n.length ↔ r.start ≤ n.last ∧ n.start ≤ r.last := by
  simp only [rangeOverlap, Range.last, decide_eq_true_eq] at *
  grind

def joinNext (r : Range) : List Range → List Range
  | [] => [r]
  | n :: l =>
    if r.start + r.length = n.start then ⟨r.start, r.length + n.length⟩ :: l else r :: n :: l

theorem place_eq (prev : Option Range) :
    place n.start n.length prev l = prev.elim id joinNext (joinNext n l) := by
  obtain ⟨start, length⟩ := n
  unfold place checkDoCombine
  rcases prev with _ | p <;> rcases l with _ | ⟨q, l⟩ <;>
    simp [Option.filter_some, joinNext, UInt64.add_assoc] <;> grind

theorem joinNext_exact (hr : r.start ≤ r.last) (hl : Exact l) (h : ∀ a, Free l a → r.last < a) :
    Exact (joinNext r l) ∧ ∀ a, Free (joinNext r l) a ↔ r.Has a ∨ Free l a := by
  cases l with
  | nil => simp [joinNext, exact_cons, hr, hl]
  | cons n l =>
    have hlt := h n.start hl.free_start
    by_cases hj : r.start + r.length = n.start
    · obtain ⟨hn, hl, hf⟩ := exact_cons.mp hl
      have hlast : (⟨r.start, r.length + n.length⟩ : Range).last = n.last := by
        simp only [Range.last] at *
        grind
      simp only [joinNext, if_pos hj, exact_cons, free_cons, Range.Has, hlast]
      refine ⟨⟨by grind, hl, hf⟩, fun a => ?_⟩
      simp only [Range.last] at *
      grind
    · simp only [joinNext, if_neg hj, free_cons, implies_true, and_true]
      refine exact_cons.mpr ⟨hr, hl, fun a ha => ?_⟩
      have hle := hl.start_le ha
      simp only [Range.last] at *
      grind

theorem joinNext_eq (ht : Exact t) (h : ∀ a, Free t a → p.last + 1 < a) :
    joinNext p t = p :: t := by
  cases t with
  | nil => rfl
  | cons n t =>
    have := h n.start ht.free_start
    simp only [Range.last] at this
    exact if_neg (by grind)

theorem joinNext_inserted (hn : n.start ≤ n.last) (hl : Exact l)
    (h : ∀ a, Free l a → n.last < a) : Inserted l n (some (joinNext n l)) := by
  obtain ⟨hx, hf⟩ := joinNext_exact hn hl h
  exact ⟨hx, hn, fun a => ⟨hf a, fun ⟨ha, hb⟩ => UInt64.not_lt.mpr ha.2 (h a hb)⟩⟩

theorem Inserted.join {o : Option (List Range)} (hs : Exact (p :: s)) (hn : p.last < n.start)
    (h : Inserted s n o) : Inserted (p :: s) n (o.map (joinNext p)) := by
  cases o with
  | none => exact h.imp_right (.imp_right fun ⟨a, ha, hna⟩ => ⟨a, free_cons.mpr (.inr ha), hna⟩)
  | some t =>
    obtain ⟨hp, -, hf⟩ := exact_cons.mp hs
    obtain ⟨hx, hnn, hi⟩ := h
    obtain ⟨hx, hj⟩ := joinNext_exact hp hx fun a ha =>
      ((hi a).1.mp ha).elim (fun ha => UInt64.lt_of_lt_of_le hn ha.1) fun ha => (hf a ha).1
    refine ⟨hx, hnn, fun a => ?_⟩
    have hpn : p.Has a → ¬ n.Has a := by
      simp only [Range.Has]
      grind
    have hia := hi a
    rw [hj, free_cons]
    tauto

/-- Behind `p`, the loop does what it does without it, and joins `p`. -/
theorem insertFrom_inserted (hn : n.start ≤ n.last) (hl : Exact l) :
    Inserted l n (insertFrom n.start n.length none l) ∧
      ∀ p, Exact (p :: l) → p.last < n.start → insertFrom n.start n.length (some p) l =
        (insertFrom n.start n.length none l).map (joinNext p) := by
  induction l with
  | nil =>
    simp only [insertFrom, place_eq]
    exact ⟨joinNext_inserted hn hl (by simp), fun _ _ _ => rfl⟩
  | cons r l ih =>
    have hr := hl.range r (by simp)
    simp only [insertFrom, place_eq]
    split_ifs with ho hlt <;> rw [rangeOverlap_iff hr hn] at ho
    · refine ⟨.inr (.inr ?_), fun _ _ _ => rfl⟩
      by_cases hle : r.start ≤ n.start
      · exact ⟨n.start, ⟨r, by simp, hle, ho.2⟩, UInt64.le_refl _, hn⟩
      · exact ⟨r.start, hl.free_start, by grind, ho.1⟩
    · refine ⟨joinNext_inserted hn hl fun a ha => ?_, fun _ _ _ => rfl⟩
      have := hl.start_le ha
      grind
    · obtain ⟨hi, hm⟩ := ih (exact_cons.mp hl).2.1
      have hlt : r.last < n.start := by grind
      have hj := hi.join hl hlt
      rw [← hm r hl hlt] at hj
      refine ⟨by simpa using hj, fun p hp _ => ?_⟩
      have hpr := (exact_cons.mp hp).2.2
      cases ht : insertFrom n.start n.length (some r) l with
      | none => rfl
      | some t =>
        rw [ht] at hj
        have hpt : ∀ a, Free t a → p.last + 1 < a := by
          intro a ha
          rcases (hj.2.2 a).1.mp ha with ha | ha
          · have := hpr _ hl.free_start
            have := ha.1
            grind
          · exact (hpr a ha).2
        simp [joinNext_eq hj.1 hpt]

theorem and_not_eq_sub (x m : UInt64) : x &&& ~~~ m = x - (x &&& m) := by
  have h : (x &&& ~~~ m) + (x &&& m) = x := by
    rw [← UInt64.toBitVec_inj, UInt64.toBitVec_add, UInt64.toBitVec_and, UInt64.toBitVec_and,
      UInt64.toBitVec_not, BitVec.add_eq_or_of_and_eq_zero] <;> ext i hi <;>
      cases hm : m.toBitVec[i] <;> simp [hm]
  grind

theorem toNat_align {v al : UInt64} (hp : powerOfTwo al) : (∃ k < 64, al.toNat = 2 ^ k) ∧
    (align v al).toNat = (v + al - 1).toNat - (v + al - 1).toNat % al.toNat := by
  simp only [powerOfTwo, ← UInt64.toNat_inj, decide_eq_true_eq, ne_eq, UInt64.toNat_and] at hp
  have hlt := al.toNat_lt
  have hal : (al - 1).toNat = al.toNat - 1 := by
    have : 0 < al.toNat := Nat.pos_of_ne_zero hp.1
    simp only [UInt64.toNat_sub, UInt64.toNat_one]
    omega
  rw [hal] at hp
  obtain ⟨k, hk⟩ := ne_zero_and_sub_one_eq_zero_iff_isPowerOfTwo.mp hp
  have hm : ((v + al - 1) &&& (al - 1)).toNat = (v + al - 1).toNat % al.toNat := by
    rw [UInt64.toNat_and, hal, hk, and_two_pow_sub_one_eq_mod]
  refine ⟨⟨k, (Nat.pow_lt_pow_iff_right (by decide)).mp (hk ▸ hlt), hk⟩, ?_⟩
  rw [align, and_not_eq_sub, UInt64.toNat_sub_of_le, hm]
  rw [UInt64.le_iff_toNat_le, hm]
  exact mod_le _ _

theorem toNat_roundUp {v al : UInt64} (h : 0 < al.toNat) :
    (v + al - 1).toNat = (v.toNat + al.toNat - 1) % 2 ^ 64 := by
  simp only [UInt64.toNat_sub, UInt64.toNat_add, UInt64.toNat_one]
  omega

theorem align_spec {v al : UInt64} (hp : powerOfTwo al) (hv : v.toNat + al.toNat ≤ 2 ^ 64) :
    align v al % al = 0 ∧ v ≤ align v al ∧ ∀ a, a % al = 0 → v ≤ a → align v al ≤ a := by
  obtain ⟨⟨k, -, hk⟩, hA⟩ := toNat_align (v := v) hp
  have hpos : 0 < al.toNat := hk ▸ Nat.two_pow_pos k
  rw [toNat_roundUp hpos, mod_eq_of_lt (by omega)] at hA
  simp only [← UInt64.toNat_inj, UInt64.toNat_mod, UInt64.le_iff_toNat_le, hA]
  have hlt := mod_lt (v.toNat + al.toNat - 1) hpos
  have hmod : (v.toNat + al.toNat - 1 - (v.toNat + al.toNat - 1) % al.toNat) % al.toNat = 0 :=
    sub_mod_eq_zero_of_mod_eq (mod_mod _ _).symm
  refine ⟨hmod, by omega, fun a ha hva => not_lt.mp fun h => ?_⟩
  have := Nat.ModEq.add_le_of_lt (ha.trans hmod.symm) h
  omega

/-- Past the last multiple of the alignment the start rounds up to 0. -/
theorem align_wrapped {v al : UInt64} (hp : powerOfTwo al) (hv : ¬ v.toNat + al.toNat ≤ 2 ^ 64) :
    align v al = 0 ∧ ∀ a, a % al = 0 → ¬ v ≤ a := by
  obtain ⟨⟨k, hk64, hk⟩, hA⟩ := toNat_align (v := v) hp
  have hvlt := v.toNat_lt
  have hallt := al.toNat_lt
  have hpos : 0 < al.toNat := hk ▸ Nat.two_pow_pos k
  simp only [← UInt64.toNat_inj, UInt64.toNat_mod, UInt64.le_iff_toNat_le, hA]
  constructor
  · rw [toNat_roundUp hpos, mod_eq_sub_mod (by omega), mod_eq_of_lt (by omega),
      mod_eq_of_lt (by omega)]
    exact Nat.sub_self _
  · intro a ha hle
    have hdvd : 2 ^ 64 % al.toNat = 0 := by
      rw [hk]
      exact mod_eq_zero_of_dvd (pow_dvd_pow 2 hk64.le)
    have := Nat.ModEq.add_le_of_lt (ha.trans hdvd.symm) a.toNat_lt
    omega

def Range.rest (r : Range) (stop : UInt64) (l : List Range) : List Range :=
  if stop = r.start + r.length then l else ⟨stop, r.start + r.length - stop⟩ :: l

theorem take_append (start : UInt64) (l : List Range) : r.take start length ++ l =
    if r.start = start then r.rest (start + length) l
    else ⟨r.start, start - r.start⟩ :: r.rest (start + length) l := by
  unfold Range.take Range.rest
  split_ifs <;> simp <;> grind

theorem rest_exact {last : UInt64} (hs : Exact (r :: l)) (h : last ≤ r.last) :
    Exact (r.rest (last + 1) l) ∧
      ∀ a, Free (r.rest (last + 1) l) a ↔ last < a ∧ a ≤ r.last ∨ Free l a := by
  obtain ⟨hr, hl, hf⟩ := exact_cons.mp hs
  unfold Range.rest
  split_ifs with he
  · have : last = r.last := by
      simp only [Range.last]
      grind
    exact ⟨hl, by grind⟩
  · have hlast : (⟨last + 1, r.start + r.length - (last + 1)⟩ : Range).last = r.last := by
      simp only [Range.last]
      grind
    have hlt : last + 1 ≤ r.last ∧ last < last + 1 := by
      simp only [Range.last] at *
      grind
    rw [exact_cons, hlast]
    refine ⟨⟨hlt.1, hl, hf⟩, fun a => ?_⟩
    rw [free_cons, Range.Has, hlast]
    grind

theorem take_spec (hs : Exact (r :: l)) (hn : n.start ≤ n.last) (h2 : n.last ≤ r.last)
    (h3 : r.start ≤ n.start) :
    Exact (r.take n.start n.length ++ l) ∧ Parts (r :: l) n (r.take n.start n.length ++ l) := by
  have hf := (exact_cons.mp hs).2.2
  obtain ⟨hx, hm⟩ := rest_exact hs h2
  have hstop : n.last + 1 = n.start + n.length := by
    simp only [Range.last]
    grind
  rw [take_append, ← hstop]
  split_ifs with he
  · refine ⟨hx, fun a => ?_⟩
    rw [hm, free_cons]
    simp only [Range.Has]
    have := hf a
    grind
  · have hlast : (⟨r.start, n.start - r.start⟩ : Range).last = n.start - 1 := by
      simp only [Range.last]
      grind
    rw [exact_cons, hlast]
    refine ⟨⟨by grind, hx, fun a ha => ?_⟩, fun a => ?_⟩
    · have := (hm a).mp ha
      have := hf a
      grind
    · rw [free_cons, free_cons, hm]
      simp only [Range.Has, hlast]
      have := hf a
      grind

theorem last_lt {start last : UInt64}
    (h : ¬ (start + length - 1 ≥ start ∧ start + length - 1 ≤ last)) (hw : a ≤ a + length - 1)
    (hle : start ≤ a) : last < a + length - 1 := by
  simp only [UInt64.le_iff_toNat_le, UInt64.lt_iff_toNat_lt, UInt64.toNat_sub, UInt64.toNat_add,
    UInt64.toNat_one, ge_iff_le] at *
  have := a.toNat_lt
  have := length.toNat_lt
  omega

theorem allocFrom_allocated (hp : powerOfTwo alignment) (hs : Exact s)
    (hu : Unwrapped s (.alloc length alignment)) : Allocated s length alignment
      ((allocFrom length alignment s).elim (.error .enospc) .ok) := by
  induction s with
  | nil => simp [allocFrom, Allocated]
  | cons r s ih =>
    obtain ⟨hr, hl, hf⟩ := exact_cons.mp hs
    have hru := hu [] r s rfl rfl
    simp only [allocFrom]
    split_ifs with hfit
    · have hv : r.start.toNat + alignment.toNat ≤ 2 ^ 64 := by
        by_contra hv
        have hlt := hru.resolve_left hv
        rw [(align_wrapped hp hv).1, UInt64.zero_add] at hfit
        exact UInt64.not_lt.mpr hfit.2 hlt
      obtain ⟨h0, hle, -⟩ := align_spec hp hv
      obtain ⟨hx, ht⟩ := take_spec (n := ⟨_, length⟩) hs hfit.1 hfit.2 hle
      exact ⟨hx, h0, hfit.1, ht⟩
    · have hi := ih hl fun l q t he hn =>
        hu (r :: l) q t (he ▸ rfl) (by simp only [allocFrom, if_neg hfit, hn]; rfl)
      generalize allocFrom length alignment s = o at hi
      cases o with
      | none =>
        refine List.forall_mem_cons.mpr ⟨fun a ha0 hw hqa => ?_, hi⟩
        by_cases hv : r.start.toNat + alignment.toNat ≤ 2 ^ 64
        · exact last_lt hfit hw ((align_spec hp hv).2.2 a ha0 hqa)
        · exact absurd hqa ((align_wrapped hp hv).2 a ha0)
      | some b =>
        obtain ⟨hx, hb0, hw, ht⟩ := hi
        refine ⟨exact_cons.mpr ⟨hr, hx, fun a ha => hf a ((ht a).1.mpr (.inr ha))⟩, hb0, hw,
          fun a => ?_⟩
        have := ht a
        have := hf a
        simp only [free_cons, Range.Has] at *
        grind

theorem allocRange_allocated (hs : Exact s) (hu : Unwrapped s (.alloc length alignment)) :
    Allocated s length alignment (allocRange s length alignment) := by
  unfold allocRange
  split_ifs with h
  · exact allocFrom_allocated h hs hu
  · exact h

theorem insertRange_inserted (hs : Exact s) (start length : UInt64) :
    Inserted s ⟨start, length⟩ (insertRange s start length) := by
  unfold insertRange
  split_ifs with h
  · exact h.imp_right .inl
  · exact (insertFrom_inserted (n := ⟨start, length⟩) (UInt64.not_lt.mp (not_or.mp h).2) hs).1

/-- The set is exact after every sequence of calls that take no range by a start rounded up
to 2^64. -/
theorem iset_exact (h : system.RunWith Unwrapped s) :
    Exact s ∧ (∀ start length, Inserted s ⟨start, length⟩ (insertRange s start length)) ∧
      ∀ length alignment, Unwrapped s (.alloc length alignment) →
        Allocated s length alignment (allocRange s length alignment) := by
  have hx : Exact s := by
    apply h.invariant
    · rintro s rfl
      exact ⟨by simp, .nil⟩
    · intro s c t hs hu hn
      cases c with
      | insert start length =>
        have hr := insertRange_inserted hs start length
        cases hn
        generalize insertRange s start length = o at hr
        cases o with
        | none => exact hs
        | some t => exact hr.1
      | alloc length alignment =>
        have hr := allocRange_allocated hs hu
        cases hn
        generalize allocRange s length alignment = o at hr
        cases o with
        | error e => exact hs
        | ok t => exact hr.1
  exact ⟨hx, insertRange_inserted hx, fun _ _ => allocRange_allocated hx⟩

theorem unwrapped_of_le (h : ∀ r ∈ s, r.start.toNat + alignment.toNat ≤ 2 ^ 64) :
    Unwrapped s (.alloc length alignment) :=
  fun _ r _ hs _ => .inl (h r (by simp [hs]))

theorem iset_exact_split : Exact [⟨4, 4⟩, ⟨12, 4⟩] ∧ Allocated [⟨4, 4⟩, ⟨12, 4⟩] 1 16
    (allocRange [⟨4, 4⟩, ⟨12, 4⟩] 1 16) := by
  have hr : system.RunWith Unwrapped [⟨4, 12⟩] :=
    .step (.insert 10 6) (.step (.insert 4 6) (.start rfl) trivial rfl) trivial rfl
  have h := iset_exact (s := [⟨4, 4⟩, ⟨12, 4⟩]) (.step (.alloc 4 8) hr
    (unwrapped_of_le (by simp)) rfl)
  exact ⟨h.1, h.2.2 1 16 (unwrapped_of_le (by simp))⟩

/-- The start 2^64 - 8 rounds up to 0, an address that is not free. -/
theorem not_allocated_wrapped : system.Reachable [⟨18446744073709551608, 8⟩] ∧
    ¬ Allocated [⟨18446744073709551608, 8⟩] 1 16 (allocRange [⟨18446744073709551608, 8⟩] 1 16) := by
  refine ⟨.step (.insert 18446744073709551608 8) (.start rfl) rfl, fun h => ?_⟩
  obtain ⟨-, -, -, ht⟩ := h
  have hfree := (ht 0).1.mpr (.inl ⟨by decide, by decide⟩)
  simp [Free, Range.Has] at hfree

end Fusa.Driver.Iset

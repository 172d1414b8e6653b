import Mathlib.Data.List.Basic
import Mathlib.Order.Basic

/-! Memories as functions of an address: stores of lists, slices, and the view along a ring. -/
namespace Fusa.Bytes
open List Option Nat

variable {α : Type*} (m : ℕ → α)

def put (a : ℕ) (xs : List α) : ℕ → α :=
  fun i => if a ≤ i then xs[i - a]?.getD (m i) else m i

def slice (a n : ℕ) : List α := (List.range n).map fun k => m (a + k)

/-- A store that goes on at address 0 when it meets the end `e`. -/
def putWrap (e a : ℕ) (xs : List α) : ℕ → α :=
  if e < a + xs.length then put (put m a (xs.take (e - a))) 0 (xs.drop (e - a)) else put m a xs

/-- The ring of `e` cells, counted from `base`. -/
def view (e base : ℕ) : ℕ → α := fun k => m ((base + k) % e)

/-- Two memories are the same below `n`. -/
def Agree (n : ℕ) (m m' : ℕ → α) : Prop := ∀ k < n, m k = m' k

/-- Along the ring of `e` cells only the `n` cells from `base` on differ. -/
def Kept (e base n : ℕ) (m m' : ℕ → α) : Prop :=
  ∀ k, n ≤ k → k < e → view m' e base k = view m e base k

section
variable {m m' : ℕ → α} {a b i k n e base o : ℕ} {xs ys : List α}

theorem put_of_outside (h : i < a ∨ a + xs.length ≤ i) : put m a xs i = m i := by
  unfold put
  split
  · rw [List.getElem?_eq_none (by omega), getD_none]
  · rfl

theorem put_add (h : k < xs.length) : put m a xs (a + k) = xs[k] := by
  simp [put, h]

theorem put_congr (h : m i = m' i) : put m a xs i = put m' a xs i := by
  simp only [put, h]

theorem put_nil : put m a [] = m := by
  funext i
  exact put_of_outside (by simp; omega)

theorem put_append : put m a (xs ++ ys) = put (put m a xs) (a + xs.length) ys := by
  funext i
  by_cases h₁ : i < a
  · rw [put_of_outside (.inl h₁), put_of_outside (.inl (by omega)), put_of_outside (.inl h₁)]
  · by_cases h₂ : i < a + xs.length
    · rw [put_of_outside (i := i) (a := a + xs.length) (.inl h₂)]
      unfold put
      rw [List.getElem?_append_left (by omega)]
    · unfold put
      rw [List.getElem?_append_right (by omega), if_pos (by omega), if_pos (by omega),
        if_pos (by omega), List.getElem?_eq_none (l := xs) (by omega), getD_none,
        Nat.sub_sub]

@[simp] theorem length_slice : (slice m a n).length = n := by
  simp [slice]

theorem slice_congr (h : ∀ k < n, m (a + k) = m' (b + k)) : slice m a n = slice m' b n := by
  exact map_congr_left fun k hk => h k (mem_range.mp hk)

theorem slice_put_self : slice (put m a xs) a xs.length = xs := by
  refine ext_getElem (by simp) fun k h₁ h₂ => ?_
  simp only [slice, getElem_map, getElem_range]
  exact put_add h₂

theorem slice_put_of_outside (h : b + n ≤ a ∨ a + xs.length ≤ b) :
    slice (put m a xs) b n = slice m b n :=
  slice_congr fun k hk => put_of_outside (by omega)

theorem slice_add : slice m a (n + k) = slice m a n ++ slice m (a + n) k := by
  simp only [slice, List.range_add, List.map_append, List.map_map]
  congr 1
  refine List.map_congr_left fun j _ => ?_
  simp [Nat.add_assoc]

theorem putWrap_apply (ha : a ≤ e) (hx : xs.length ≤ e) (hi : i < e) :
    putWrap m e a xs i = xs[if a ≤ i then i - a else i + e - a]?.getD (m i) := by
  unfold putWrap
  split
  · by_cases hai : a ≤ i
    · rw [put_of_outside (.inr (by simp; omega)), if_pos hai]
      simp only [put, if_pos hai]
      rw [List.getElem?_take_of_lt (by omega)]
    · rw [if_neg hai]
      simp only [put, Nat.zero_le, if_true, if_neg hai, Nat.sub_zero, List.getElem?_drop]
      rw [show e - a + i = i + e - a by omega]
  · by_cases hai : a ≤ i
    · simp only [put, if_pos hai]
    · simp only [put, if_neg hai]
      rw [List.getElem?_eq_none (by omega), getD_none]

theorem add_mod_ring (hb : base < e) (hk : k < e) :
    (base + k) % e = if base + k < e then base + k else base + k - e := by
  split
  · rename_i h
    exact mod_eq_of_lt h
  · rw [mod_eq_sub_mod (by omega), mod_eq_of_lt (by omega)]

theorem place_add (h : a % e = (base + o) % e) (k : ℕ) : (a + k) % e = (base + (o + k)) % e := by
  rw [← Nat.add_assoc, Nat.add_mod, h, ← Nat.add_mod]

theorem putWrap_nil : putWrap m e a [] = m := by
  unfold putWrap
  split
  · simp only [take_nil, drop_nil, put_nil]
  · exact put_nil

theorem putWrap_end (hx : xs.length ≤ e) : putWrap m e e xs = putWrap m e 0 xs := by
  cases xs with
  | nil => rw [putWrap_nil, putWrap_nil]
  | cons x xs =>
    simp only [length_cons] at hx
    simp only [putWrap, length_cons]
    rw [if_pos (by omega), if_neg (by omega), Nat.sub_self, take_zero, put_nil, drop_zero]

theorem view_putWrap (hb : base < e) (hx : o + xs.length ≤ e) (hae : a ≤ e)
    (ha : a % e = (base + o) % e) :
    Agree e (view (putWrap m e a xs) e base) (put (view m e base) o xs) := by
  by_cases hnil : xs = []
  · rw [hnil, putWrap_nil, put_nil]
    exact fun _ _ => rfl
  have hpos := length_pos_of_ne_nil hnil
  -- a store at the end is one at the start
  wlog hlt : a < e generalizing a
  · obtain rfl : a = e := by omega
    rw [putWrap_end (by omega)]
    exact this (zero_le _) (by simpa using ha) (by omega)
  intro k hk
  have hck := add_mod_ring hb hk
  have hao := ((mod_eq_of_lt hlt).symm.trans ha).trans (add_mod_ring hb (by omega))
  rw [view, putWrap_apply hae (by omega) (mod_lt _ (by omega)), put, view]
  generalize (base + k) % e = c at *
  by_cases hok : o ≤ k
  · have hidx : (if a ≤ c then c - a else c + e - a) = k - o := by
      split at hck <;> split at hao <;> split <;> omega
    rw [if_pos hok, hidx]
  · have hidx : xs.length ≤ if a ≤ c then c - a else c + e - a := by
      split at hck <;> split at hao <;> split <;> omega
    rw [if_neg hok, List.getElem?_eq_none hidx, getD_none]

theorem Agree.trans {m'' : ℕ → α} (h : Agree n m m') (h' : Agree n m' m'') : Agree n m m'' :=
  fun k hk => (h k hk).trans (h' k hk)

theorem Agree.put (h : Agree n m m') : Agree n (put m a xs) (Bytes.put m' a xs) :=
  fun k hk => put_congr (h k hk)

theorem Agree.slice (h : Agree n m m') (hn : a + k ≤ n) : slice m a k = Bytes.slice m' a k :=
  slice_congr fun j hj => h (a + j) (by omega)

theorem putWrap_of_le (h : a + xs.length ≤ e) : putWrap m e a xs = put m a xs :=
  if_neg (by omega)

theorem view_put (hb : base < e) (hx : o + xs.length ≤ e) (he : a + xs.length ≤ e)
    (ha : a % e = (base + o) % e) :
    Agree e (view (put m a xs) e base) (put (view m e base) o xs) := by
  rw [← putWrap_of_le he]
  exact view_putWrap hb hx (by omega) ha

theorem Kept.refl : Kept e base n m m := fun _ _ _ => rfl

theorem Kept.trans {m'' : ℕ → α} (h : Kept e base n m m') (h' : Kept e base n m' m'') :
    Kept e base n m m'' :=
  fun k hk he => (h' k hk he).trans (h k hk he)

theorem Kept.of_outside (hb : base < e) (ho : o + k ≤ n) (ha : a % e = (base + o) % e)
    (h : ∀ i, i < a ∨ a + k ≤ i → m' i = m i) : Kept e base n m m' := by
  intro j hj hje
  refine h _ ?_
  by_cases hlt : a < e
  · have hao := ((mod_eq_of_lt hlt).symm.trans ha).trans (add_mod_ring hb (by omega))
    have hjm := add_mod_ring hb hje
    generalize (base + j) % e = c at *
    split at hjm <;> split at hao <;> omega
  · have := mod_lt (base + j) (by omega : 0 < e)
    omega

theorem Kept.put (hb : base < e) (ho : o + xs.length ≤ n) (ha : a % e = (base + o) % e) :
    Kept e base n m (put m a xs) :=
  of_outside hb ho ha fun _ hi => put_of_outside hi

theorem Kept.putWrap (hb : base < e) (ho : o + xs.length ≤ n) (hae : a ≤ e)
    (ha : a % e = (base + o) % e) : Kept e base n m (putWrap m e a xs) :=
  fun k hk hke => (view_putWrap hb (by omega) hae ha k hke).trans
    (put_of_outside (.inr (by omega)))

theorem Kept.slice_eq (h : Kept e (a % e) n m m') (hba : b + k ≤ a) (hab : a + n ≤ b + e) :
    slice (view m' e (b % e)) 0 k = slice (view m e (b % e)) 0 k := by
  refine slice_congr fun j hj => ?_
  have hv := h (b + j + e - a) (by omega) (by omega)
  have hcell : (a % e + (b + j + e - a)) % e = (b % e + (0 + j)) % e := by
    rw [mod_add_mod, mod_add_mod, show a + (b + j + e - a) = b + (0 + j) + e by omega,
      add_mod_right]
  simpa only [view, hcell] using hv

end
end Fusa.Bytes

import Mathlib.Logic.Function.Basic

/-! Memory cells: compare-and-swap, and the maps that their contents represent. -/
namespace Cas
variable {α β : Type*} [DecidableEq α] [DecidableEq β]

/-- The memory after a compare-and-swap, which answers with the word it found. -/
def cas (m : α → β) (a : α) (expected new : β) : α → β :=
  if m a = expected then Function.update m a new else m

variable {m : α → β} {a b : α} {expected new : β}

theorem cas_of_eq (h : m a = expected) : cas m a expected new = Function.update m a new :=
  if_pos h

theorem cas_of_ne (h : m a ≠ expected) : cas m a expected new = m := if_neg h

theorem cas_apply_of_ne (h : b ≠ a) : cas m a expected new b = m b := by
  unfold cas
  split
  · exact Function.update_of_ne h _ _
  · rfl

end Cas

namespace CellMap
open Function
variable {α β κ ν : Type*} (key : β → κ) (value : β → ν)

/-- `cell a b` says that the cell `a` counts and holds the entry `b`. -/
structure Represents (cell : α → β → Prop) (map : κ → Option ν) : Prop where
  map_key : ∀ {a b}, cell a b → map (key b) = some (value b)
  unique : ∀ {a a' b b'}, cell a b → cell a' b' → key b = key b' → a = a'
  exists_cell : ∀ {k v}, map k = some v → ∃ a b, cell a b ∧ key b = k ∧ value b = v

variable {key value} {cell cell' : α → β → Prop} {map : κ → Option ν}

theorem Represents.congr (h : Represents key value cell map)
    (hc : ∀ a b, cell' a b ↔ cell a b) : Represents key value cell' map := by
  have he : cell' = cell := by
    funext a b
    exact propext (hc a b)
  rwa [he]

theorem exists_represents (hf : ∀ {a b b'}, cell a b → cell a b' → b = b')
    (hu : ∀ {a a' b b'}, cell a b → cell a' b' → key b = key b' → a = a') :
    ∃ map, Represents key value cell map := by
  classical
  have hone : ∀ {a a' b b'}, cell a b → cell a' b' → key b = key b' → b = b' := by
    intro a a' b b' hb hb' hk
    obtain rfl := hu hb hb' hk
    exact hf hb hb'
  refine ⟨fun k => if h : ∃ b, (∃ a, cell a b) ∧ key b = k then some (value h.choose) else none,
    ?_, hu, ?_⟩
  · intro a b hb
    have h : ∃ b', (∃ a, cell a b') ∧ key b' = key b := ⟨b, ⟨a, hb⟩, rfl⟩
    obtain ⟨⟨a', ha'⟩, hk⟩ := h.choose_spec
    rw [dif_pos h, hone ha' hb hk]
  · intro k v hk
    split at hk
    · rename_i h
      obtain ⟨⟨a, ha⟩, hkey⟩ := h.choose_spec
      exact ⟨a, _, ha, hkey, Option.some.inj hk⟩
    · cases hk

variable [DecidableEq κ]

section
variable (h : Represents key value cell map)
include h

/-- The entry `b` in the cell `a` takes the place of the cells with its key. -/
theorem Represents.put (a : α) (b : β)
    (hc : ∀ x y, cell' x y ↔ (x = a ∧ y = b) ∨ (cell x y ∧ key y ≠ key b)) :
    Represents key value cell' (update map (key b) (some (value b))) := by
  refine ⟨?_, ?_, ?_⟩
  · intro x y hxy
    rcases (hc x y).mp hxy with ⟨-, rfl⟩ | ⟨hxy, hne⟩
    · exact update_self ..
    · rw [update_of_ne hne, h.map_key hxy]
  · intro x x' y y' hxy hxy' hk
    rcases (hc x y).mp hxy with ⟨rfl, rfl⟩ | ⟨hxy, hne⟩ <;>
      rcases (hc x' y').mp hxy' with ⟨rfl, rfl⟩ | ⟨hxy', hne'⟩
    · rfl
    · exact absurd hk.symm hne'
    · exact absurd hk hne
    · exact h.unique hxy hxy' hk
  · intro k v hk
    by_cases hkb : k = key b
    · subst hkb
      rw [update_self] at hk
      exact ⟨a, b, (hc a b).mpr (.inl ⟨rfl, rfl⟩), rfl, Option.some.inj hk⟩
    · rw [update_of_ne hkb] at hk
      obtain ⟨x, y, hxy, rfl, hv⟩ := h.exists_cell hk
      exact ⟨x, y, (hc x y).mpr (.inr ⟨hxy, hkb⟩), rfl, hv⟩

theorem Represents.drop (k : κ) (hc : ∀ x y, cell' x y ↔ cell x y ∧ key y ≠ k) :
    Represents key value cell' (update map k none) := by
  refine ⟨?_, ?_, ?_⟩
  · intro x y hxy
    obtain ⟨hxy, hne⟩ := (hc x y).mp hxy
    rw [update_of_ne hne, h.map_key hxy]
  · intro x x' y y' hxy hxy' hk
    exact h.unique ((hc x y).mp hxy).1 ((hc x' y').mp hxy').1 hk
  · intro k' v hk
    by_cases hkk : k' = k
    · subst hkk
      simp at hk
    · rw [update_of_ne hkk] at hk
      obtain ⟨x, y, hxy, rfl, hv⟩ := h.exists_cell hk
      exact ⟨x, y, (hc x y).mpr ⟨hxy, hkk⟩, rfl, hv⟩

theorem Represents.relocate (a : α) {x : α} {b : β} (hx : cell x b)
    (hc : ∀ x y, cell' x y ↔ (x = a ∧ y = b) ∨ (cell x y ∧ key y ≠ key b)) :
    Represents key value cell' map := by
  have hp := h.put a b hc
  rwa [← h.map_key hx, update_eq_self] at hp

end

end CellMap

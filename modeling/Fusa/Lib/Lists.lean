import Mathlib.Data.List.GetD
import Mathlib.Data.List.Nodup

/-! Lists with consecutive numbers, as scanned for an answer, and as tables. -/
namespace Numbered

variable {α : Type*} {P Q : ℕ → α → Prop} {lo : ℕ}

def From (P : ℕ → α → Prop) : ℕ → List α → Prop
  | _, [] => True
  | lo, x :: l => P lo x ∧ From P (lo + 1) l

variable {l : List α} {x : α}

theorem From.concat (h : From P lo l) (hx : P (lo + l.length) x) : From P lo (l ++ [x]) := by
  induction l generalizing lo with
  | nil => exact ⟨hx, trivial⟩
  | cons y l ih =>
    refine ⟨h.1, ih h.2 ?_⟩
    rwa [List.length_cons, Nat.add_comm l.length, ← Nat.add_assoc] at hx

theorem From.imp (h : From P lo l) (hPQ : ∀ k x, lo ≤ k → k < lo + l.length → P k x → Q k x) :
    From Q lo l := by
  induction l generalizing lo with
  | nil => trivial
  | cons y l ih =>
    rw [List.length_cons] at hPQ
    exact ⟨hPQ lo y (Nat.le_refl _) (by omega) h.1,
      ih h.2 fun k x hk hk' => hPQ k x (by omega) (by omega)⟩

theorem From.get (h : From P lo l) {n : ℕ} (hx : l[n]? = some x) : P (lo + n) x := by
  induction l generalizing lo n with
  | nil => simp at hx
  | cons y l ih =>
    cases n with
    | zero =>
      obtain rfl : y = x := by simpa using hx
      exact h.1
    | succ n =>
      rw [Nat.add_comm n, ← Nat.add_assoc]
      exact ih h.2 (by simpa using hx)

theorem From.map_eq_range {f : α → ℕ} (h : From (fun k x => f x = k) lo l) :
    l.map f = List.range' lo l.length := by
  induction l generalizing lo with
  | nil => rfl
  | cons y l ih => rw [List.map_cons, h.1, ih h.2, List.length_cons, List.range'_succ]

end Numbered

namespace FindSome
open List Option Nat
variable {α β : Type*} {f g : α → Option β} {l : List α}

theorem congr (h : ∀ a ∈ l, f a = g a) : l.findSome? f = l.findSome? g := by
  induction l with
  | nil => rfl
  | cons a l ih =>
    rw [List.findSome?_cons, List.findSome?_cons, h a mem_cons_self,
      ih fun b hb => h b (mem_cons_of_mem a hb)]

theorem find_bind {p : α → Bool} (h : ∀ a ∈ l, p a → (g a).isSome) :
    (l.find? p).bind g = l.findSome? fun a => if p a then g a else none := by
  induction l with
  | nil => rfl
  | cons a l ih =>
    rw [List.findSome?_cons]
    by_cases hp : p a
    · obtain ⟨b, hb⟩ := isSome_iff_exists.mp (h a mem_cons_self hp)
      simp [hp, hb]
    · simp [hp, ih fun b hb => h b (mem_cons_of_mem a hb)]

theorem filter {p : α → Bool} (h : ∀ a ∈ l, (f a).isSome → p a) :
    (l.filter p).findSome? f = l.findSome? f := by
  induction l with
  | nil => rfl
  | cons a l ih =>
    have ih := ih fun b hb => h b (mem_cons_of_mem a hb)
    by_cases hp : p a
    · rw [filter_cons_of_pos hp, List.findSome?_cons, List.findSome?_cons, ih]
    · have hf : f a = none :=
        not_isSome_iff_eq_none.mp fun hs => hp (h a mem_cons_self hs)
      rw [filter_cons_of_neg hp, List.findSome?_cons, hf, ih]

theorem range_getD {d : α} {n : ℕ} (hd : f d = none) (hn : l.length ≤ n) :
    ((List.range n).findSome? fun j => f (l.getD j d)) = l.findSome? f := by
  induction l generalizing n with
  | nil => simp [List.findSome?_eq_none_iff, hd]
  | cons a l ih =>
    obtain ⟨k, rfl⟩ := Nat.exists_eq_add_of_le' (Nat.le_trans (Nat.succ_pos _) hn)
    rw [range_succ_eq_map, List.findSome?_cons, List.findSome?_map, List.findSome?_cons]
    rw [← ih (le_of_succ_le_succ hn)]
    rfl

theorem range_mul (a b : ℕ) (f : ℕ → Option β) : (List.range (a * b)).findSome? f =
      (List.range a).findSome? fun i => (List.range b).findSome? fun j => f (i * b + j) := by
  induction a with
  | zero => simp
  | succ a ih =>
    rw [succ_mul, range_add, List.findSome?_append, ih, range_succ,
      List.findSome?_append, List.findSome?_map, List.findSome?_singleton]
    rfl

end FindSome

namespace FirstWins
open List
variable {κ ν : Type*} [DecidableEq κ]

def emplace (t : List (κ × ν)) (k : κ) (v : ν) : List (κ × ν) :=
  if (t.lookup k).isSome then t else t ++ [(k, v)]

theorem lookup_emplace (t : List (κ × ν)) (k k' : κ) (v : ν) :
    (emplace t k v).lookup k' = (t ++ [(k, v)]).lookup k' := by
  unfold emplace
  split_ifs with h
  · obtain ⟨w, hw⟩ := Option.isSome_iff_exists.mp h
    rw [lookup_append]
    by_cases hk : k' = k
    · simp [hk, hw]
    · simp [lookup_cons, beq_false_of_ne hk]
  · rfl

section
variable {l : List κ} {k : κ} {n i : ℕ}

theorem lookup_zipIdx_some (h : (l.zipIdx n).lookup k = some i) : n ≤ i ∧ l[i - n]? = some k := by
  induction l generalizing n with
  | nil => simp at h
  | cons a l ih =>
    by_cases hk : k = a
    · simp only [zipIdx_cons, hk, lookup_cons_self, Option.some.injEq] at h
      simp [← h, hk]
    · simp only [zipIdx_cons, lookup_cons, beq_false_of_ne hk] at h
      obtain ⟨hn, hi⟩ := ih h
      refine ⟨by omega, ?_⟩
      rw [show i - n = i - (n + 1) + 1 by omega]
      simpa using hi

theorem lookup_zipIdx_isSome (h : k ∈ l) : ∃ i, (l.zipIdx n).lookup k = some i := by
  induction l generalizing n with
  | nil => simp at h
  | cons a l ih =>
    by_cases hk : k = a
    · exact ⟨n, by simp [zipIdx_cons, hk]⟩
    · obtain ⟨i, hi⟩ := ih (n := n + 1) ((mem_cons.mp h).resolve_left hk)
      exact ⟨i, by simp [zipIdx_cons, lookup_cons, beq_false_of_ne hk, hi]⟩

theorem lookup_zipIdx_of_nodup (hl : l.Nodup) (h : l[i]? = some k) :
    (l.zipIdx).lookup k = some i := by
  obtain ⟨j, hj⟩ := lookup_zipIdx_isSome (n := 0) (mem_of_getElem? h)
  have hjk := (lookup_zipIdx_some hj).2
  rw [hj, Option.some.injEq]
  exact ((List.getElem?_inj (List.getElem?_eq_some_iff.mp h).1 hl).mp (h.trans hjk.symm)).symm

theorem nodup_of_lookup_zipIdx (h : ∀ i k, l[i]? = some k → (l.zipIdx).lookup k = some i) :
    l.Nodup := by
  rw [nodup_iff_getElem?_ne_getElem?]
  intro i j hij hj he
  have hi : l[i]? = some l[i] := List.getElem?_eq_getElem (by omega)
  have h1 := h i _ hi
  have h2 := h j _ (he ▸ hi)
  rw [h1, Option.some.injEq] at h2
  omega

end
end FirstWins

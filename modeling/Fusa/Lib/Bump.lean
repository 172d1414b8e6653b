import Mathlib.Algebra.BigOperators.Fin
import Mathlib.Algebra.Order.BigOperators.Group.Finset
import Fusa.Lib.Transition

/-! How often blocks cover an address, and allocators that move a shared counter over it. -/
namespace Cover
open Function Nat Finset

/-- Whether the block of `len` addresses from `a` on contains `x`, as a count. -/
def hit (a len x : ℕ) : ℕ := if a ≤ x ∧ x < a + len then 1 else 0

variable {a b m n x : ℕ}

theorem hit_le_one : hit a n x ≤ 1 := by
  unfold hit
  split_ifs <;> omega

theorem hit_pos_iff : 0 < hit a n x ↔ a ≤ x ∧ x < a + n := by
  unfold hit
  split_ifs with h <;> simp [h]

theorem hit_add (a m n x : ℕ) : hit a (m + n) x = hit a m x + hit (a + m) n x := by
  unfold hit
  split_ifs <;> omega

theorem hit_mul_succ (a n k x : ℕ) :
    hit a ((k + 1) * n) x = hit a (k * n) x + hit (a + k * n) n x := by
  rw [succ_mul, hit_add]

theorem apart_of_hit (hm : 0 < m) (hn : 0 < n) (h : ∀ x, hit a m x + hit b n x ≤ 1) :
    a + m ≤ b ∨ b + n ≤ a := by
  by_contra hc
  have hx := h (max a b)
  have ha : 0 < hit a m (max a b) := hit_pos_iff.mpr (by omega)
  have hb : 0 < hit b n (max a b) := hit_pos_iff.mpr (by omega)
  omega

theorem inside_of_hit (hm : 0 < m) (h : ∀ x, hit a m x ≤ hit b n x) : b ≤ a ∧ a + m ≤ b + n := by
  have h1 := h a
  have h2 := h (a + m - 1)
  have h1' : 0 < hit a m a := hit_pos_iff.mpr (by omega)
  have h2' : 0 < hit a m (a + m - 1) := hit_pos_iff.mpr (by omega)
  have h3 := hit_pos_iff.mp (h1'.trans_le h1)
  have h4 := hit_pos_iff.mp (h2'.trans_le h2)
  omega

def hits (len : ℕ) (as : List ℕ) (x : ℕ) : ℕ := (as.map (hit · len x)).sum

@[simp] theorem hits_nil (len x : ℕ) : hits len [] x = 0 := rfl

@[simp] theorem hits_cons (len a : ℕ) (as : List ℕ) (x : ℕ) :
    hits len (a :: as) x = hit a len x + hits len as x := by
  simp [hits]

@[simp] theorem hits_concat (len a : ℕ) (as : List ℕ) (x : ℕ) :
    hits len (as ++ [a]) x = hits len as x + hit a len x := by
  simp [hits]

theorem le_sum_of_mem {β : Type*} {f : β → ℕ} {c : β} {cs : List β} (h : c ∈ cs) :
    f c ≤ (cs.map f).sum :=
  List.single_le_sum (fun _ _ => zero_le _) _ (List.mem_map_of_mem h)

theorem pairwise_of_sum_le {β γ : Type*} {f : β → γ → ℕ} {cs : List β}
    (h : ∀ x, (cs.map (f · x)).sum ≤ 1) : cs.Pairwise fun c d => ∀ x, f c x + f d x ≤ 1 := by
  induction cs with
  | nil => exact .nil
  | cons c cs ih =>
    have hx : ∀ x, f c x + (cs.map (f · x)).sum ≤ 1 := fun x => by simpa using h x
    refine .cons (fun d hd x => ?_) (ih fun x => ?_)
    · exact (Nat.add_le_add_left (le_sum_of_mem (f := (f · x)) hd) _).trans (hx x)
    · exact (le_add_left _ _).trans (hx x)

theorem sum_update {ι β M : Type*} [DecidableEq ι] [AddCommMonoid M] (s : Finset ι)
    (f : ι → β → M) (g : ι → β) {i : ι} (hi : i ∈ s) (v : β) :
    ∑ j ∈ s, f j (update g i v j) + f i (g i) = ∑ j ∈ s, f j (g j) + f i v := by
  have hrest : ∑ j ∈ s.erase i, f j (update g i v j) = ∑ j ∈ s.erase i, f j (g j) :=
    sum_congr rfl fun j hj => by rw [update_of_ne (ne_of_mem_erase hj)]
  rw [← add_sum_erase s _ hi, ← add_sum_erase s (fun j => f j (g j)) hi, hrest,
    update_self, add_right_comm, add_comm (f i v), add_right_comm]

end Cover

namespace Bump
open Transition Function List

/-- A counter that a request moves by `take` of its size; with `check` it is read before. -/
structure Params where
  modulus : ℕ
  limit : ℕ
  first : ℕ
  take : ℕ → ℕ
  check : Bool
  first_lt : first < modulus

/-- Where a thread is: between calls, behind the first read, or with an amount to put back. -/
inductive Phase
  | idle
  | checked (size : ℕ)
  | owing (amount : ℕ)
deriving DecidableEq, Repr

def Phase.owed : Phase → ℕ
  | .owing amount => amount
  | _ => 0

/-- The blocks handed out are given by their start and the size asked for. -/
structure State (θ : Type*) where
  offset : ℕ
  phase : θ → Phase
  granted : List (ℕ × ℕ)

inductive Label (θ : Type*)
  | load (t : θ) (size : ℕ)
  | add (t : θ) (size : ℕ)
  | sub (t : θ)

variable {θ : Type*} [DecidableEq θ] (p : Params)

def ready (size : ℕ) : Phase := if p.check then .checked size else .idle

def next (s : State θ) : Label θ → Option (State θ)
  | .load t size =>
    if p.check = true ∧ s.phase t = .idle ∧ size < p.modulus then
      if p.limit < (s.offset + p.take size) % p.modulus then some s
      else some { s with phase := update s.phase t (.checked size) }
    else none
  | .add t size =>
    if s.phase t = ready p size ∧ size < p.modulus then
      if (s.offset + p.take size) % p.modulus ≤ p.limit then
        some {
          offset := (s.offset + p.take size) % p.modulus
          phase := update s.phase t .idle
          granted := s.granted ++ [(s.offset, size)] }
      else
        some { s with
          offset := (s.offset + p.take size) % p.modulus
          phase := update s.phase t (.owing (p.take size)) }
    else none
  | .sub t =>
    match s.phase t with
    | .owing amount =>
      some { s with
        offset := (s.offset + (p.modulus - amount)) % p.modulus
        phase := update s.phase t .idle }
    | _ => none

def initial : State θ := ⟨p.first, fun _ => .idle, []⟩

def system (θ : Type*) [DecidableEq θ] (p : Params) : System (State θ) (Label θ) :=
  ⟨(· = initial p), next p⟩

def Apart (r r' : ℕ × ℕ) : Prop := ∀ x, ¬ ((r.1 ≤ x ∧ x < r.1 + r.2) ∧ r'.1 ≤ x ∧ x < r'.1 + r'.2)

/-- The blocks handed out are apart, and none goes beyond the limit. -/
structure Good (limit : ℕ) (s : State θ) : Prop where
  apart : s.granted.Pairwise Apart
  within : ∀ r ∈ s.granted, r.1 + r.2 ≤ limit

/-- An addition does not go round, and one that fits finds nothing still to be put back. -/
def Calm (s : State θ) : Label θ → Prop
  | .add _ size =>
    size ≤ p.take size ∧ s.offset + p.take size < p.modulus ∧
      (s.offset + p.take size ≤ p.limit → ∀ t, (s.phase t).owed = 0)
  | _ => True

section
variable [Fintype θ]

instance Calm.decidable (s : State θ) (a : Label θ) : Decidable (Calm p s a) := by
  cases a <;> unfold Calm <;> infer_instance

/-- Everything handed out lies below `front`, and the counter is there but for what is owed. -/
structure Inv (p : Params) (front : ℕ) (s : State θ) : Prop where
  offset : s.offset = front + ∑ t, (s.phase t).owed
  offset_lt : s.offset < p.modulus
  good : Good p.limit s
  below : ∀ r ∈ s.granted, r.1 + r.2 ≤ front

variable {p} {front : ℕ} {s s' : State θ} {t : θ} {size : ℕ}

theorem sum_owed_update (phase : θ → Phase) (t : θ) (ph : Phase) :
    ∑ u, (update phase t ph u).owed + (phase t).owed = ∑ u, (phase u).owed + ph.owed :=
  Cover.sum_update Finset.univ (fun _ ph => Phase.owed ph) phase (Finset.mem_univ t) ph

theorem ready_owed : (ready p size).owed = 0 := by
  unfold ready
  split_ifs <;> rfl

section
variable (h : Inv p front s)
include h

theorem Inv.setPhase {ph : Phase} (ho : ph.owed = (s.phase t).owed) :
    Inv p front { s with phase := update s.phase t ph } := by
  refine ⟨?_, h.offset_lt, ⟨h.good.apart, h.good.within⟩, h.below⟩
  have hsum := sum_owed_update s.phase t ph
  have := h.offset
  dsimp only
  omega

/-- A request that fits gets the cells right behind everything handed out before. -/
theorem Inv.grant (hr : s.phase t = ready p size) (hc : Calm p s (.add t size))
    (hfit : s.offset + p.take size ≤ p.limit) :
    Inv p (front + p.take size) {
      offset := s.offset + p.take size
      phase := update s.phase t .idle
      granted := s.granted ++ [(s.offset, size)] } := by
  obtain ⟨hsize, hlt, hnone⟩ := hc
  have howed : ∑ u, (s.phase u).owed = 0 := Finset.sum_eq_zero fun u _ => hnone hfit u
  have hoff : s.offset = front := by
    rw [h.offset, howed, add_zero]
  have hsum := sum_owed_update s.phase t .idle
  rw [howed, hr, ready_owed] at hsum
  have hidle : Phase.idle.owed = 0 := rfl
  refine ⟨by dsimp only; omega, hlt, ⟨?_, ?_⟩, ?_⟩
  · rw [pairwise_append]
    refine ⟨h.good.apart, pairwise_singleton _ _, fun r hr r' hr' x hx => ?_⟩
    rw [mem_singleton.mp hr'] at hx
    have := h.below r hr
    omega
  · intro r hr
    rcases mem_append.mp hr with hr | hr
    · exact h.good.within r hr
    · rw [mem_singleton.mp hr]
      omega
  · intro r hr
    rcases mem_append.mp hr with hr | hr
    · have := h.below r hr
      omega
    · rw [mem_singleton.mp hr]
      omega

theorem Inv.refuse (hr : s.phase t = ready p size) (hlt : s.offset + p.take size < p.modulus) :
    Inv p front { s with
      offset := s.offset + p.take size
      phase := update s.phase t (.owing (p.take size)) } := by
  have hsum := sum_owed_update s.phase t (.owing (p.take size))
  rw [hr, ready_owed] at hsum
  have howed : (Phase.owing (p.take size)).owed = p.take size := rfl
  have := h.offset
  refine ⟨by dsimp only; omega, hlt, ⟨h.good.apart, h.good.within⟩, h.below⟩

theorem Inv.putBack {amount : ℕ} (ht : s.phase t = .owing amount) :
    Inv p front { s with
      offset := (s.offset + (p.modulus - amount)) % p.modulus
      phase := update s.phase t .idle } := by
  have hsum := sum_owed_update s.phase t .idle
  have howed : (s.phase t).owed = amount := by rw [ht]; rfl
  have hidle : Phase.idle.owed = 0 := rfl
  have hlt := h.offset_lt
  have hoff := h.offset
  -- what is owed is still in the counter
  have hmod : (s.offset + (p.modulus - amount)) % p.modulus = s.offset - amount := by
    rw [show s.offset + (p.modulus - amount) = s.offset - amount + p.modulus by omega,
      Nat.add_mod_right, Nat.mod_eq_of_lt (by omega)]
  rw [hmod]
  refine ⟨by dsimp only; omega, by dsimp only; omega, ⟨h.good.apart, h.good.within⟩, h.below⟩

theorem Inv.next {a : Label θ} (hc : Calm p s a) (hn : next p s a = some s') :
    ∃ front', Inv p front' s' := by
  cases a with
  | load t size =>
    simp only [Bump.next] at hn
    split_ifs at hn with hr
    · cases hn
      exact ⟨front, h⟩
    · cases hn
      exact ⟨front, h.setPhase (by rw [hr.2.1]; rfl)⟩
  | add t size =>
    simp only [Bump.next] at hn
    split_ifs at hn with hr hfit
    · cases hn
      rw [Nat.mod_eq_of_lt hc.2.1] at hfit ⊢
      exact ⟨_, h.grant hr.1 hc hfit⟩
    · cases hn
      rw [Nat.mod_eq_of_lt hc.2.1]
      exact ⟨front, h.refuse hr.1 hc.2.1⟩
  | sub t =>
    simp only [Bump.next] at hn
    split at hn
    · rename_i amount ht
      cases hn
      exact ⟨front, h.putBack ht⟩
    · cases hn

end

theorem good_of_runWith (h : (system θ p).RunWith (Calm p) s) : Good p.limit s := by
  have hinv : ∃ front, Inv p front s := by
    refine h.invariant (P := fun s => ∃ front, Inv p front s) ?_ ?_
    · rintro s rfl
      refine ⟨p.first, ?_, p.first_lt, ⟨List.Pairwise.nil, by simp [initial]⟩, by simp [initial]⟩
      simp [initial, Phase.owed]
    · rintro s a t ⟨front, hi⟩ hc hn
      exact hi.next hc hn
  obtain ⟨front, hi⟩ := hinv
  exact hi.good

end

end Bump

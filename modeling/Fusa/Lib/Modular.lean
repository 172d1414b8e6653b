import Mathlib.Data.UInt
import Mathlib.Tactic

/-! Quotients and residues, distances on a ring, and counters of 32 and 64 bits. -/
namespace Blocks

open Nat

theorem mul_add_inj {c q q' r r' : ℕ} (hr : r < c) (hr' : r' < c)
    (h : c * q + r = c * q' + r') : q = q' ∧ r = r' := by
  have hq : q = q' := by
    have hd := congrArg (· / c) h
    simpa only [mul_add_div (by omega : 0 < c), div_eq_of_lt hr, div_eq_of_lt hr',
      add_zero] using hd
  subst hq
  exact ⟨rfl, by omega⟩

theorem mul_lt_of_lt_div {c k o : ℕ} (h : o < c / k) : k * o < c := by
  have hk : 0 < k := pos_of_ne_zero fun hk => by simp [hk] at h
  have h1 : k * (o + 1) ≤ k * (c / k) := mul_le_mul_left k h
  have h2 := mul_div_le c k
  rw [mul_succ] at h1
  omega

theorem mul_add_lt {c n q r : ℕ} (hq : q < n) (hr : r < c) : c * q + r < c * n := by
  have h : c * (q + 1) ≤ c * n := mul_le_mul_left c hq
  rw [mul_succ] at h
  omega

end Blocks

namespace Residue
variable {n m P Q s : ℕ}

theorem mod_two_mul (h : n % Q = s) : n % (Q * 2) = s ∨ n % (Q * 2) = s + Q := by
  rw [Nat.mod_mul, h]
  rcases Nat.mod_two_eq_zero_or_one (n / Q) with h2 | h2 <;> simp [h2]

theorem lt_of_lt_add (h : n % P = m % P) (hlt : n < m + P) (hne : n ≠ m) : n < m := by
  refine Nat.lt_of_not_le fun hle => ?_
  have hdvd : P ∣ n - m := Nat.dvd_of_mod_eq_zero (Nat.sub_mod_eq_zero_of_mod_eq h)
  have := Nat.le_of_dvd (by omega) hdvd
  omega

theorem eq_of_lt_add (h : n % P = s) (hlt : n < s + P) : n = s := by
  refine Decidable.byContradiction fun hne => ?_
  have hs : n % P = s % P := by rw [← h, Nat.mod_mod]
  have := lt_of_lt_add hs hlt hne
  have := Nat.mod_le n P
  omega

theorem exists_parting (R : ℕ → ℕ) (h0 : R 0 = 1) {N : ℕ} (h : n % R N ≠ m % R N) :
    ∃ d < N, n % R d = m % R d ∧ n % R (d + 1) ≠ m % R (d + 1) := by
  induction N with
  | zero => exact absurd (by rw [h0, Nat.mod_one, Nat.mod_one]) h
  | succ N ih =>
    by_cases hN : n % R N = m % R N
    · exact ⟨N, Nat.lt_succ_self N, hN, h⟩
    · obtain ⟨d, hd, hp⟩ := ih hN
      exact ⟨d, Nat.lt_succ_of_lt hd, hp⟩

end Residue

namespace Cyclic

def dist (w p q : ℕ) : ℕ := (q + w - p) % w

variable {w p q d : ℕ}

theorem dist_lt (hw : 0 < w) : dist w p q < w := Nat.mod_lt _ hw

section
variable (hp : p < w)
include hp

theorem add_dist (q : ℕ) : p + dist w p q ≡ q [MOD w] := by
  have h : p + (q + w - p) = q + w := by omega
  calc p + dist w p q ≡ p + (q + w - p) [MOD w] := (Nat.mod_modEq _ _).add_left p
    _ ≡ q [MOD w] := by rw [h]; exact Nat.add_modEq_right

theorem dist_eq (hd : d < w) (h : p + d ≡ q [MOD w]) : dist w p q = d := by
  have he : p + dist w p q ≡ p + d [MOD w] := (add_dist hp q).trans h.symm
  exact (Nat.ModEq.add_left_cancel' p he).eq_of_lt_of_lt (dist_lt (by omega)) hd

theorem dist_eq_zero : dist w p q = 0 ↔ q % w = p := by
  constructor
  · intro h
    have := add_dist hp q
    rw [h, Nat.add_zero, Nat.ModEq, Nat.mod_eq_of_lt hp] at this
    exact this.symm
  · intro h
    refine dist_eq hp (by omega) ?_
    rw [Nat.add_zero, Nat.ModEq, Nat.mod_eq_of_lt hp, h]

theorem dist_add (q n : ℕ) : dist w p (q + n) = (dist w p q + n) % w := by
  refine dist_eq hp (Nat.mod_lt _ (by omega)) ?_
  calc p + (dist w p q + n) % w ≡ p + (dist w p q + n) [MOD w] := (Nat.mod_modEq _ _).add_left p
    _ = p + dist w p q + n := by omega
    _ ≡ q + n [MOD w] := (add_dist hp q).add_right n

theorem dist_succ (h : dist w p q ≠ 0) : dist w ((p + 1) % w) q = dist w p q - 1 := by
  have hlt : dist w p q < w := dist_lt (by omega)
  refine dist_eq (Nat.mod_lt _ (by omega)) (by omega) ?_
  calc (p + 1) % w + (dist w p q - 1) ≡ p + 1 + (dist w p q - 1) [MOD w] :=
        (Nat.mod_modEq _ _).add_right _
    _ = p + dist w p q := by omega
    _ ≡ q [MOD w] := add_dist hp q

theorem dist_succ_succ : dist w ((p + 1) % w) (q + 1) = dist w p q := by
  refine dist_eq (Nat.mod_lt _ (by omega)) (dist_lt (by omega)) ?_
  calc (p + 1) % w + dist w p q ≡ p + 1 + dist w p q [MOD w] := (Nat.mod_modEq _ _).add_right _
    _ = p + dist w p q + 1 := by omega
    _ ≡ q + 1 [MOD w] := (add_dist hp q).add_right 1

end

theorem eq_of_mod_eq {i j lo : ℕ} (hi : lo ≤ i) (hi' : i < lo + w) (hj : lo ≤ j) (hj' : j < lo + w)
    (h : i % w = j % w) : i = j := by
  have hm : lo + (i - lo) ≡ lo + (j - lo) [MOD w] := by
    rwa [Nat.add_sub_cancel' hi, Nat.add_sub_cancel' hj]
  have := (Nat.ModEq.add_left_cancel' lo hm).eq_of_lt_of_lt (by omega) (by omega)
  omega

end Cyclic

namespace Wrap

theorem ofNat_inj_iff (a b : ℕ) : UInt64.ofNat a = UInt64.ofNat b ↔ a % 2 ^ 64 = b % 2 ^ 64 := by
  rw [← UInt64.toNat_inj, UInt64.toNat_ofNat', UInt64.toNat_ofNat']

theorem ofNat_inj_of_near {a b : ℕ} (h : a ≤ b + 1) (h' : b ≤ a + 1) :
    UInt64.ofNat a = UInt64.ofNat b ↔ a = b := by
  rw [ofNat_inj_iff]
  omega

theorem ofNat_succ (n : ℕ) : UInt64.ofNat (n + 1) = UInt64.ofNat n + 1 := UInt64.ofNat_add n 1

/-- A counter at most `n` events past a multiple of `n` is at one again after all `n`; beyond 64
bits this needs an `n` that divides the period. -/
theorem turn_iff {n q k : ℕ} (hk : 0 < k) (hn : k ≤ n) (h : n * q + k < 2 ^ 64 ∨ n ∣ 2 ^ 63) :
    (UInt64.ofNat (n * q + k)).toNat % n = 0 ↔ k = n := by
  have hmod : (n * q + k) % 2 ^ 64 % n = k % n := by
    rcases h with h | h
    · rw [Nat.mod_eq_of_lt h, Nat.mul_add_mod]
    · have hd : n ∣ 2 ^ 64 := h.trans ⟨2, by norm_num⟩
      rw [Nat.mod_mod_of_dvd _ hd, Nat.mul_add_mod]
  rw [UInt64.toNat_ofNat', hmod]
  constructor
  · intro hc
    by_contra hne
    rw [Nat.mod_eq_of_lt (by omega)] at hc
    omega
  · intro hc
    rw [hc, Nat.mod_self]

theorem changed_iff {n a k : ℕ} (hn : k ≤ n) (h : a + k < 2 ^ 64 ∨ n ∣ 2 ^ 63) :
    UInt64.ofNat a = UInt64.ofNat (a + k) ↔ k = 0 := by
  rw [ofNat_inj_iff]
  rcases h with h | h
  · omega
  · have hle : n ≤ 2 ^ 63 := Nat.le_of_dvd (by norm_num) h
    omega

end Wrap

namespace Serial

def dist (a b : UInt32) : ℕ := (b - a).toNat

variable {a b : UInt32} {n : ℕ}

@[simp] theorem dist_self (a : UInt32) : dist a a = 0 := by
  simp [dist]

theorem toNat_sub_add (h : dist a b + n < 2 ^ 32) :
    (b - a + UInt32.ofNat n).toNat = dist a b + n := by
  unfold dist at h ⊢
  rw [UInt32.toNat_add, UInt32.toNat_ofNat', Nat.mod_eq_of_lt (by omega : n < 2 ^ 32),
    Nat.mod_eq_of_lt h]

theorem dist_add (h : dist a b + n < 2 ^ 32) : dist a (b + UInt32.ofNat n) = dist a b + n := by
  have hcomm : b + UInt32.ofNat n - a = b - a + UInt32.ofNat n := by
    rw [UInt32.sub_eq_add_neg, UInt32.sub_eq_add_neg, UInt32.add_assoc, UInt32.add_assoc,
      UInt32.add_comm (UInt32.ofNat n)]
  rw [← toNat_sub_add h, ← hcomm, dist]

theorem dist_add_self (h : n < 2 ^ 32) : dist a (a + UInt32.ofNat n) = n := by
  rw [dist_add (by simpa using h), dist_self, zero_add]

theorem dist_succ (h : 0 < dist a b) : dist (a + 1) b = dist a b - 1 := by
  unfold dist at h ⊢
  have hcomm : b - (a + 1) = b - a - 1 := by
    rw [UInt32.sub_eq_add_neg, UInt32.sub_eq_add_neg, UInt32.sub_eq_add_neg, UInt32.neg_add,
      UInt32.sub_eq_add_neg, UInt32.add_assoc]
  rw [hcomm, UInt32.toNat_sub_of_le _ _ (by rw [UInt32.le_iff_toNat_le]; exact h)]
  rfl

end Serial

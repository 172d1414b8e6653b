import Fusa.Lib.Transition
import Mathlib.Data.Fintype.BigOperators

/-! The user-index tables: `mlx5_store_uidx`, `mlx5_clear_uidx` and `mlx5_find_uidx`. -/
namespace Fusa.Driver.Uidx
open Transition Function Finset Option Nat

variable {α : Type}

/-- The slots of a table are `none` before it is allocated and after it is freed, and one of them
when it is `NULL`. -/
structure Table (α : Type) where
  refcnt : ℤ
  table : Option (Fin 4096 → Option α)

/-- `uidx & MLX5_UIDX_TABLE_MASK`. -/
def slotOf (uidx : ℕ) : Fin 4096 := .ofNat 4096 (uidx &&& 4095)

/-- A loop over `n` indices from `i` on that stops at the first with `p`. -/
def firstIndex (p : ℕ → Prop) [DecidablePred p] : ℕ → ℕ → Option ℕ
  | 0, _ => none
  | n + 1, i => if p i then some i else firstIndex p n (i + 1)

variable (ctx : ℕ → Table α)

/-- `get_free_uidx`, with `none` for -1; it fails when it reads a table that is not there. -/
def getFreeUidx : Option (Option ℕ) :=
  match firstIndex (fun tind => (ctx tind).refcnt < 4095) 4096 0 with
  | none => some none
  | some tind =>
    if (ctx tind).refcnt = 0 then some (some (tind <<< 12))
    else (ctx tind).table.map fun table =>
      some (tind <<< 12 ||| (firstIndex (fun i => table (slotOf i) = none) 4096 0).getD 4096)

/-- `mlx5_store_uidx` when the allocation succeeds. -/
def mlx5StoreUidx (rsc : α) : Option (Option ℕ × (ℕ → Table α)) := do
  match ← getFreeUidx ctx with
  | none => some (none, ctx)
  | some uidx =>
    let t := ctx (uidx >>> 12)
    let table ← if t.refcnt = 0 then some fun _ => none else t.table
    some (some uidx, update ctx (uidx >>> 12)
      ⟨t.refcnt + 1, some (update table (slotOf uidx) (some rsc))⟩)

def mlx5ClearUidx (uidx : ℕ) : Option (ℕ → Table α) := do
  let t := ctx (uidx >>> 12)
  if t.refcnt - 1 = 0 then some (update ctx (uidx >>> 12) ⟨t.refcnt - 1, none⟩)
  else
    let table ← t.table
    some (update ctx (uidx >>> 12) ⟨t.refcnt - 1, some (update table (slotOf uidx) none)⟩)

def mlx5FindUidx (uidx : ℕ) : Option (Option α) :=
  if (ctx (uidx >>> 12)).refcnt ≠ 0 then
    (ctx (uidx >>> 12)).table.map fun table => table (slotOf uidx)
  else some none

/-- The tables, and for each live index what was stored under it. -/
structure State (α : Type) where
  ctx : ℕ → Table α
  live : ℕ → Option α

inductive Action (α : Type)
  | store (rsc : α)
  | clear (uidx : ℕ)

def next (s : State α) : Action α → Option (State α)
  | .store rsc => (mlx5StoreUidx s.ctx rsc).map fun r =>
    ⟨r.2, r.1.elim s.live fun uidx => update s.live uidx (some rsc)⟩
  | .clear uidx =>
    if (s.live uidx).isSome then
      (mlx5ClearUidx s.ctx uidx).map fun ctx => ⟨ctx, update s.live uidx none⟩
    else none

/-- Every sequence of stores, and of clears of live indices. -/
def system (α : Type) : System (State α) (Action α) where
  start s := s = ⟨fun _ => ⟨0, none⟩, fun _ => none⟩
  next := next

/-- User indices identify resources, and no call touches a table that is not there. -/
structure Identifies (s : State α) : Prop where
  distinct : ∀ rsc uidx ctx, mlx5StoreUidx s.ctx rsc = some (some uidx, ctx) → s.live uidx = none
  inRange : ∀ uidx, (s.live uidx).isSome → uidx < 2 ^ 24
  lookup : ∀ uidx rsc, s.live uidx = some rsc → mlx5FindUidx s.ctx uidx = some (some rsc)
  table : ∀ t, (s.ctx t).table.isSome ↔ ∃ uidx, uidx >>> 12 = t ∧ (s.live uidx).isSome
  store : ∀ rsc, (mlx5StoreUidx s.ctx rsc).isSome
  clear : ∀ uidx, (s.live uidx).isSome → (mlx5ClearUidx s.ctx uidx).isSome

def used {ι : Type} [Fintype ι] (f : ι → Option α) : ℕ := #{i | (f i).isSome}

variable {ι : Type} [Fintype ι] {f : ι → Option α} {i : ι} {v : α} {live : ℕ → Option α} {u : ℕ}
  {o : Option α} {s t : State α} {g : Fin 4096 → Option α}

theorem used_take [DecidableEq ι] (hf : f i = none) : used (update f i (some v)) = used f + 1 := by
  have hi : i ∉ ({j | (f j).isSome} : Finset ι) := by simp [hf]
  unfold used
  rw [← card_insert_of_notMem hi]
  refine congrArg card (ext fun j => ?_)
  by_cases hj : j = i <;> simp_all

theorem used_clear [DecidableEq ι] (hf : (f i).isSome) : used f = used (update f i none) + 1 := by
  obtain ⟨rsc, hrsc⟩ := isSome_iff_exists.mp hf
  have h := used_take (v := rsc) (update_self i none f)
  rwa [update_idem, ← hrsc, update_eq_self] at h

theorem used_eq_zero : used f = 0 ↔ f = fun _ => none := by
  simp [used, filter_eq_empty_iff, funext_iff]

theorem exists_free (h : used f < Fintype.card ι) : ∃ i, f i = none := by
  by_contra! hall
  refine h.ne (card_filter_eq_iff.mpr fun i _ => ?_)
  exact isSome_iff_ne_none.mpr (hall i)

theorem used_le (f : ι → Option α) : used f ≤ Fintype.card ι := card_filter_le ..

attribute [irreducible] used

def Table.of (f : Fin 4096 → Option α) : Table α := ⟨used f, if used f = 0 then none else some f⟩

def slots (live : ℕ → Option α) (t : ℕ) : Fin 4096 → Option α := fun i => live (t <<< 12 + i)

theorem Table.of_refcnt (f : Fin 4096 → Option α) : (Table.of f).refcnt = used f := rfl

theorem Table.of_take {j : Fin 4096} (hg : g j = none) :
    of (update g j (some v)) = ⟨(of g).refcnt + 1, some (update g j (some v))⟩ := by
  rw [of_refcnt, of, used_take hg, if_neg (succ_ne_zero _)]
  rfl

theorem Table.of_clear {j : Fin 4096} (hg : (g j).isSome) :
    of (update g j none) = ⟨(of g).refcnt - 1,
      if (of g).refcnt - 1 = 0 then none else some (update g j none)⟩ := by
  rw [of_refcnt, used_clear hg, of]
  simp

structure Inv (s : State α) : Prop where
  ctx : ∀ t, s.ctx t = .of (slots s.live t)
  le : ∀ t, used (slots s.live t) ≤ 4095
  lt : ∀ u, (s.live u).isSome → u < 2 ^ 24

theorem firstIndex_eq_none {p : ℕ → Prop} [DecidablePred p] {n i k : ℕ}
    (h : firstIndex p n i = none) (hi : i ≤ k) (hk : k < i + n) : ¬ p k := by
  induction n generalizing i with
  | zero => omega
  | succ n ih =>
    unfold firstIndex at h
    split at h
    · cases h
    · rename_i hp
      rcases hi.eq_or_lt with rfl | hlt
      · exact hp
      · exact ih h hlt (by omega)

theorem firstIndex_eq_some {p : ℕ → Prop} [DecidablePred p] {n i k : ℕ}
    (h : firstIndex p n i = some k) : k < i + n ∧ p k := by
  induction n generalizing i with
  | zero => cases h
  | succ n ih =>
    unfold firstIndex at h
    split at h
    · cases h
      exact ⟨by omega, by assumption⟩
    · have := ih h
      exact ⟨by omega, this.2⟩

theorem shiftRight_12 (u : ℕ) : u >>> 12 = u / 4096 := u.shiftRight_eq_div_pow 12

theorem shiftLeft_12 (t : ℕ) : t <<< 12 = t * 4096 := t.shiftLeft_eq 12

theorem slotOf_val (u : ℕ) : (slotOf u).val = u % 4096 := by
  rw [slotOf, Fin.val_ofNat, u.and_two_pow_sub_one_eq_mod 12]
  exact mod_mod u 4096

theorem slots_self (live : ℕ → Option α) (u : ℕ) : slots live (u >>> 12) (slotOf u) = live u := by
  rw [slots, slotOf_val, shiftRight_12, shiftLeft_12]
  congr 1
  omega

theorem slots_update (t : ℕ) : slots (update live u o) t =
    if t = u >>> 12 then update (slots live t) (slotOf u) o else slots live t := by
  have hu : ∀ j : Fin 4096, t <<< 12 + j = u ↔ t = u >>> 12 ∧ j = slotOf u := by
    intro j
    rw [Fin.ext_iff, slotOf_val, shiftRight_12, shiftLeft_12]
    omega
  funext j
  by_cases ht : t = u >>> 12
  · rw [if_pos ht, slots, update_apply, update_apply]
    simp only [hu]
    simp only [ht, true_and]
    rfl
  · rw [if_neg ht]
    exact update_of_ne (fun h => ht ((hu j).mp h).1) ..

section
variable (h : Inv s)
include h

theorem Inv.table_cases (t : ℕ) :
    ((s.ctx t).refcnt = 0 ∧ (s.ctx t).table = none ∧ slots s.live t = fun _ => none) ∨
      ((s.ctx t).refcnt ≠ 0 ∧ (s.ctx t).table = some (slots s.live t)) := by
  rw [h.ctx, Table.of_refcnt]
  by_cases h : used (slots s.live t) = 0
  · exact .inl ⟨Int.natCast_eq_zero.mpr h, if_pos h, used_eq_zero.mp h⟩
  · exact .inr ⟨mt Int.natCast_eq_zero.mp h, if_neg h⟩

theorem Inv.update_ctx (u : ℕ) (o : Option α) :
    update s.ctx (u >>> 12) (.of (update (slots s.live (u >>> 12)) (slotOf u) o)) =
      fun t => .of (slots (update s.live u o) t) := by
  funext t
  rw [slots_update]
  by_cases ht : t = u >>> 12
  · simp [ht]
  · simp [ht, h.ctx]

/-- `get_free_uidx` finds none when every table has 4095 references, else a free index of a table
that has fewer. -/
theorem Inv.getFreeUidx_eq : (∀ t < 4096, used (slots s.live t) = 4095) ∧
    getFreeUidx s.ctx = some none ∨ ∃ u < 2 ^ 24, used (slots s.live (u >>> 12)) < 4095 ∧
      s.live u = none ∧ getFreeUidx s.ctx = some (some u) := by
  unfold getFreeUidx
  split
  · rename_i hf
    refine .inl ⟨fun t ht => le_antisymm (h.le t) ?_, rfl⟩
    have hnot := firstIndex_eq_none hf t.zero_le (by omega)
    rw [h.ctx, Table.of_refcnt] at hnot
    omega
  · rename_i t hf
    obtain ⟨ht, hlt⟩ := firstIndex_eq_some hf
    rw [h.ctx, Table.of_refcnt] at hlt
    refine .inr ?_
    rcases h.table_cases t with ⟨h0, -, hnone⟩ | ⟨h0, htable⟩
    · have hu : t <<< 12 >>> 12 = t := t.shiftLeft_shiftRight 12
      refine ⟨t <<< 12, by rw [shiftLeft_12]; omega, by rw [hu]; omega, ?_, ?_⟩
      · rw [← slots_self s.live, hu, hnone]
      · rw [if_pos h0]
    · obtain ⟨j, hj⟩ := exists_free (f := slots s.live t) (by rw [Fintype.card_fin]; omega)
      have hsj : slotOf j = j := Fin.ext ((slotOf_val j).trans (mod_eq_of_lt j.isLt))
      obtain ⟨k, hk⟩ :
          ∃ k, firstIndex (fun i => slots s.live t (slotOf i) = none) 4096 0 = some k :=
        ne_none_iff_exists'.mp fun hn =>
          firstIndex_eq_none hn (zero_le j) (by omega) (hsj.symm ▸ hj)
      obtain ⟨hlt', hnone⟩ := firstIndex_eq_some hk
      rw [zero_add] at hlt'
      have hu : (t <<< 12 ||| k) >>> 12 = t ∧ slotOf (t <<< 12 ||| k) = slotOf k ∧
          t <<< 12 ||| k < 2 ^ 24 := by
        rw [← shiftLeft_add_eq_or_of_lt hlt', shiftLeft_12, shiftRight_12, Fin.ext_iff,
          slotOf_val, slotOf_val]
        omega
      refine ⟨_, hu.2.2, by rw [hu.1]; omega, by rwa [← slots_self s.live, hu.1, hu.2.1], ?_⟩
      rw [if_neg h0, htable, map_some, hk, getD_some]

/-- What a store does, with the tables as the live indices say. -/
theorem Inv.store_cases (rsc : α) : (∀ t < 4096, used (slots s.live t) = 4095) ∧
    mlx5StoreUidx s.ctx rsc = some (none, s.ctx) ∨
      ∃ u < 2 ^ 24, used (slots s.live (u >>> 12)) < 4095 ∧ s.live u = none ∧
        mlx5StoreUidx s.ctx rsc =
          some (some u, fun t => .of (slots (update s.live u (some rsc)) t)) := by
  rcases h.getFreeUidx_eq with ⟨hall, hget⟩ | ⟨u, hu, hlt, hfree, hget⟩
  · exact .inl ⟨hall, by simp [mlx5StoreUidx, hget]⟩
  · refine .inr ⟨u, hu, hlt, hfree, ?_⟩
    have hf := (slots_self s.live u).trans hfree
    rw [← h.update_ctx, Table.of_take hf, ← h.ctx]
    simp only [mlx5StoreUidx, hget, bind_eq_bind, bind_some]
    rcases h.table_cases (u >>> 12) with ⟨h0, -, hnone⟩ | ⟨h0, htable⟩
    · rw [if_pos h0, ← hnone]
    · rw [if_neg h0, htable]
      rfl

theorem Inv.clear_eq (hu : (s.live u).isSome) : mlx5ClearUidx s.ctx u =
    some fun t => .of (slots (update s.live u none) t) := by
  have hs : (slots s.live (u >>> 12) (slotOf u)).isSome := by rwa [slots_self]
  rw [← h.update_ctx, Table.of_clear hs, ← h.ctx]
  unfold mlx5ClearUidx
  rcases h.table_cases (u >>> 12) with ⟨-, -, hnone⟩ | ⟨-, htable⟩
  · rw [hnone] at hs
    cases hs
  · dsimp only
    rw [htable]
    split <;> rfl

theorem Inv.exists_free : ∃ u < 2 ^ 24, s.live u = none := by
  obtain ⟨j, hj⟩ := Uidx.exists_free (f := slots s.live 0)
    ((h.le 0).trans_lt (by rw [Fintype.card_fin]; omega))
  exact ⟨0 <<< 12 + j, by rw [shiftLeft_12]; omega, hj⟩

theorem Inv.change (hle : used (update (slots s.live (u >>> 12)) (slotOf u) o) ≤ 4095)
    (ho : o.isSome → u < 2 ^ 24) :
    Inv ⟨fun t => .of (slots (update s.live u o) t), update s.live u o⟩ where
  ctx _ := rfl
  le t := by
    rw [slots_update]
    split
    · rename_i ht
      rwa [ht]
    · exact h.le t
  lt w hw := by
    by_cases hwu : w = u
    · subst hwu
      exact ho (by simpa using hw)
    · exact h.lt w (by simpa [update_of_ne hwu] using hw)

theorem Inv.step {a : Action α} (hn : (system α).next s a = some t) : Inv t := by
  cases a with
  | store rsc =>
    obtain ⟨r, hr, rfl⟩ := map_eq_some_iff.mp hn
    rcases h.store_cases rsc with ⟨-, hs⟩ | ⟨u, hu, hlt, hfree, hs⟩
    · cases hs.symm.trans hr
      exact h
    · cases hs.symm.trans hr
      refine h.change ?_ fun _ => hu
      rw [used_take ((slots_self s.live u).trans hfree)]
      omega
  | clear u =>
    obtain ⟨hu, hn⟩ := ite_none_right_eq_some.mp hn
    rw [h.clear_eq hu] at hn
    cases hn
    refine h.change ?_ (by simp)
    have hc := used_clear (f := slots s.live (u >>> 12)) (i := slotOf u) (by rwa [slots_self])
    have := h.le (u >>> 12)
    omega

theorem Inv.identifies : Identifies s where
  distinct rsc uidx ctx hst := by
    rcases h.store_cases rsc with ⟨-, hs⟩ | ⟨u, _, _, hfree, hs⟩
    · cases hs.symm.trans hst
    · cases hs.symm.trans hst
      exact hfree
  inRange := h.lt
  lookup u rsc hu := by
    have hs := (slots_self s.live u).trans hu
    unfold mlx5FindUidx
    rcases h.table_cases (u >>> 12) with ⟨-, -, hnone⟩ | ⟨h0, htable⟩
    · rw [hnone] at hs
      cases hs
    · rw [if_pos h0, htable, map_some, hs]
  table t := by
    rcases h.table_cases t with ⟨-, htable, hnone⟩ | ⟨h0, htable⟩
    · refine iff_of_false (by simp [htable]) ?_
      rintro ⟨u, rfl, hu⟩
      rw [← slots_self s.live, hnone] at hu
      cases hu
    · refine iff_of_true (by simp [htable]) ?_
      by_contra! hno
      rw [h.ctx, Table.of_refcnt] at h0
      refine h0 (Int.natCast_eq_zero.mpr (used_eq_zero.mpr (funext fun j => ?_)))
      have := hno (t <<< 12 + j) (by rw [shiftRight_12, shiftLeft_12]; omega)
      simpa [slots] using this
  store rsc := by
    rcases h.store_cases rsc with ⟨-, hs⟩ | ⟨u, _, _, _, hs⟩ <;> rw [hs] <;> rfl
  clear u hu := by
    rw [h.clear_eq hu]
    rfl

end

theorem Inv.of_reachable (h : (system α).Reachable s) : Inv s := by
  have hz : ∀ t, used (slots (fun _ => none : ℕ → Option α) t) = 0 := fun t =>
    used_eq_zero.mpr rfl
  refine h.invariant ?_ fun _ _ _ h hn => h.step hn
  rintro _ rfl
  exact ⟨fun t => by simp [Table.of, hz], fun t => (hz t).trans_le (zero_le _), by simp⟩

/-- User indices identify resources in every run; a store answers -1 only when no index is free
exactly while some table has fewer than 4095 live ones. -/
theorem uidx_identifies (h : (system α).Reachable s) (rsc : α) :
    Identifies s ∧ (((mlx5StoreUidx s.ctx rsc).map Prod.fst = some none →
      ∀ u < 2 ^ 24, (s.live u).isSome) ↔ ∃ t < 4096, used (slots s.live t) < 4095) := by
  have hinv := Inv.of_reachable h
  refine ⟨hinv.identifies, ?_⟩
  rcases hinv.store_cases rsc with ⟨hall, hs⟩ | ⟨u, hu, hlt, -, hs⟩
  · refine iff_of_false (fun hused => ?_) ?_
    · obtain ⟨u, hu, hfree⟩ := hinv.exists_free
      have := hused (hs ▸ rfl) u hu
      rw [hfree] at this
      cases this
    · rintro ⟨t, ht, hlt⟩
      exact hlt.ne (hall t ht)
  · refine iff_of_true (fun hnone => ?_) ⟨u >>> 12, by rw [shiftRight_12]; omega, hlt⟩
    rw [hs] at hnone
    cases hnone

/-- Index 0 is given back while index 1 is live, and is the next one to be given. -/
theorem uidx_identifies_reused : ∃ s : State ℕ, s.live 0 = none ∧ s.live 1 = some 8 ∧
    (mlx5StoreUidx s.ctx 9).map Prod.fst = some (some 0) ∧ Identifies s ∧
    ∃ t < 4096, used (slots s.live t) < 4095 := by
  obtain ⟨s, -, h, h0, h1, hs⟩ := (system ℕ).exists_reachable
    (fun s => s.live 0 = none ∧ s.live 1 = some 8 ∧
      (mlx5StoreUidx s.ctx 9).map Prod.fst = some (some 0)) rfl
    [.store 7, .store 8, .clear 0] (by decide +kernel)
  obtain ⟨hid, hiff⟩ := uidx_identifies h 9
  exact ⟨s, h0, h1, hs, hid, hiff.mp fun hnone => by simp [hs] at hnone⟩

/-- After enough stores one answers -1 while a slot is free. -/
theorem store_fails_with_free_index : ∃ s, (system ℕ).Reachable s ∧
    mlx5StoreUidx s.ctx 7 = some (none, s.ctx) ∧ ∃ u < 2 ^ 24, s.live u = none := by
  by_contra! hno
  have hall : ∀ n, ∃ s, (system ℕ).Reachable s ∧ used (fun u : Fin (2 ^ 24) => s.live u) = n := by
    intro n
    induction n with
    | zero => exact ⟨_, .start rfl, used_eq_zero.mpr rfl⟩
    | succ n ih =>
      obtain ⟨s, hs, hn⟩ := ih
      have hinv := Inv.of_reachable hs
      rcases hinv.store_cases 7 with ⟨hall, hst⟩ | ⟨u, hu, _, hfree, hst⟩
      · obtain ⟨u, hu, hfree⟩ := hinv.exists_free
        exact absurd hfree (hno s hs hst u hu)
      · refine ⟨_, hs.step (.store 7) (by simp only [system, next, hst]; rfl), ?_⟩
        rw [← hn, ← used_take (i := ⟨u, hu⟩) (v := 7) hfree]
        congr 1
        funext w
        simp [update_apply, Fin.ext_iff]
  -- so many indices do not exist
  obtain ⟨s, -, hn⟩ := hall (2 ^ 24 + 1)
  have := used_le (fun u : Fin (2 ^ 24) => s.live u)
  rw [hn, Fintype.card_fin] at this
  omega

end Fusa.Driver.Uidx

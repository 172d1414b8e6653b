import Fusa.Lib.Modular

/-! Queues: sorted lists, rings of slots, linked and doubly linked lists. -/
namespace MaxQueue

/-- A way to take a greatest element from the elements pushed so far. -/
structure Impl (α : Type*) (key : α → ℕ) where
  pop : List α → Option (α × List α)
  isSome_pop : ∀ {l}, l ≠ [] → (pop l).isSome
  perm_pop : ∀ {l x rest}, pop l = some (x, rest) → (x :: rest).Perm l
  le_pop : ∀ {l x rest}, pop l = some (x, rest) → ∀ y ∈ l, key y ≤ key x

variable {α : Type*} (key : α → ℕ)

def takeFirst : List α → Option (α × List α)
  | [] => none
  | x :: l =>
    match takeFirst l with
    | none => some (x, [])
    | some (y, rest) => if key x < key y then some (y, x :: rest) else some (x, l)

variable {key} {l : List α} {x : α} {rest : List α}

theorem takeFirst_isSome (h : l ≠ []) : (takeFirst key l).isSome := by
  cases l with
  | nil => exact absurd rfl h
  | cons x l =>
    unfold takeFirst
    split
    · rfl
    · split <;> rfl

theorem takeFirst_eq_none (h : takeFirst key l = none) : l = [] := by
  by_contra hl
  have hs : (takeFirst key l).isSome := takeFirst_isSome hl
  simp [h] at hs

theorem takeFirst_perm (h : takeFirst key l = some (x, rest)) : (x :: rest).Perm l := by
  induction l generalizing x rest with
  | nil => cases h
  | cons z l ih =>
    unfold takeFirst at h
    split at h
    · rename_i hl
      cases h
      rw [takeFirst_eq_none hl]
    · rename_i y r hy
      split at h
      · cases h
        exact (List.Perm.swap z x r).trans ((ih hy).cons z)
      · cases h
        exact .refl _

theorem takeFirst_le (h : takeFirst key l = some (x, rest)) : ∀ y ∈ l, key y ≤ key x := by
  induction l generalizing x rest with
  | nil => cases h
  | cons z l ih =>
    unfold takeFirst at h
    split at h
    · rename_i hl
      cases h
      simp [takeFirst_eq_none hl]
    · rename_i y r hy
      have hle := ih hy
      split at h
      · cases h
        intro w hw
        obtain rfl | hw := List.mem_cons.mp hw
        · omega
        · exact hle w hw
      · cases h
        intro w hw
        obtain rfl | hw := List.mem_cons.mp hw
        · exact le_refl _
        · have := hle w hw
          omega

/-- Ties go to the element that was pushed first. -/
def first (key : α → ℕ) : Impl α key where
  pop := takeFirst key
  isSome_pop := takeFirst_isSome
  perm_pop := takeFirst_perm
  le_pop := takeFirst_le

end MaxQueue

namespace Ring
open Function List Nat
variable {α : Type*} {entries : ℕ → α} {w p q : ℕ}

def after (w p : ℕ) : ℕ := if p + 1 = w then 0 else p + 1

theorem after_eq_mod (hp : p < w) : after w p = (p + 1) % w := by
  unfold after
  split_ifs with h
  · rw [h, mod_self]
  · rw [mod_eq_of_lt (by omega)]

theorem after_lt (hp : p < w) : after w p < w := by
  rw [after_eq_mod hp]
  exact mod_lt _ (by omega)

/-- The entries from slot `p` up to slot `q`, in the order they were written. -/
def between (entries : ℕ → α) (w p q : ℕ) : List α :=
  (List.range (Cyclic.dist w p q)).map fun i => entries ((p + i) % w)

theorem between_eq_nil (hp : p < w) (hq : q < w) : between entries w p q = [] ↔ q = p := by
  unfold between
  rw [map_eq_nil_iff, range_eq_nil, Cyclic.dist_eq_zero hp, mod_eq_of_lt hq]

theorem between_cons (hp : p < w) (hq : q < w) (h : q ≠ p) :
    between entries w p q = entries p :: between entries w (after w p) q := by
  have hd : Cyclic.dist w p q ≠ 0 := by
    rwa [Ne, Cyclic.dist_eq_zero hp, mod_eq_of_lt hq]
  obtain ⟨d, hd'⟩ := exists_eq_succ_of_ne_zero hd
  unfold between
  rw [after_eq_mod hp, Cyclic.dist_succ hp hd, hd', range_succ_eq_map]
  simp only [map_cons, map_map, add_zero, mod_eq_of_lt hp, succ_eq_add_one,
    Nat.add_sub_cancel]
  refine congrArg _ (map_congr_left fun i _ => ?_)
  simp only [Function.comp_apply, mod_add_mod, add_assoc, add_comm 1]

theorem length_between : (between entries w p q).length = Cyclic.dist w p q := by
  simp [between]

theorem dist_after (hp : p < w) (hq : q < w) :
    Cyclic.dist w p (after w q) = (Cyclic.dist w p q + 1) % w := by
  rw [← Cyclic.dist_add hp, after_eq_mod hq]
  refine Cyclic.dist_eq hp (Cyclic.dist_lt (by omega)) ?_
  exact (Cyclic.add_dist hp (q + 1)).trans (mod_modEq _ _).symm

theorem after_eq_iff (hp : p < w) (hq : q < w) : after w q = p ↔ Cyclic.dist w p q + 1 = w := by
  have hlt : Cyclic.dist w p q < w := Cyclic.dist_lt (by omega)
  have hz := Cyclic.dist_eq_zero (q := after w q) hp
  rw [mod_eq_of_lt (after_lt hq), dist_after hp hq] at hz
  rw [← hz]
  constructor
  · intro h
    by_contra hne
    rw [mod_eq_of_lt (by omega)] at h
    omega
  · intro h
    rw [h, mod_self]

theorem between_snoc (hp : p < w) (hq : q < w) (h : after w q ≠ p) (x : α) :
    between (update entries q x) w p (after w q) = between entries w p q ++ [x] := by
  have hlt : Cyclic.dist w p q < w := Cyclic.dist_lt (by omega)
  have hd : Cyclic.dist w p (after w q) = Cyclic.dist w p q + 1 := by
    rw [Ne, after_eq_iff hp hq] at h
    rw [dist_after hp hq, mod_eq_of_lt (by omega)]
  have hend : (p + Cyclic.dist w p q) % w = q := by
    have := Cyclic.add_dist hp q
    rw [Nat.ModEq, mod_eq_of_lt hq] at this
    exact this
  unfold between
  rw [hd, range_succ, map_append, map_singleton, hend, update_self]
  refine congrArg (· ++ [x]) (map_congr_left fun i hi => ?_)
  have hne : (p + i) % w ≠ q := by
    intro hiq
    have hi' := mem_range.mp hi
    have := Cyclic.eq_of_mod_eq (by omega : p ≤ p + i) (by omega) (le_add_right p _)
      (by omega : p + Cyclic.dist w p q < p + w) (hiq.trans hend.symm)
    omega
  rw [update_of_ne hne]

end Ring

namespace LinkedQueue
open Function List
variable {α : Type*} {next next' : α → Option α} {head tail a b : α} {l : List α}

def cells (next : α → Option α) : ℕ → Option α → List α
  | 0, _ => []
  | _ + 1, none => []
  | n + 1, some a => a :: cells next n (next a)

/-- The links lead from the head through the cells of the list to the tail. -/
inductive Linked (next : α → Option α) (tail : α) : α → List α → Prop
  | last (h : next tail = none) : Linked next tail tail [tail]
  | cons {a b : α} {l : List α} (h : next a = some b) (hl : Linked next tail b l) :
      Linked next tail a (a :: l)

structure Queue (next : α → Option α) (head tail : α) (l : List α) : Prop where
  linked : Linked next tail head l
  nodup : l.Nodup

namespace Linked

section
variable (h : Linked next tail head l)
include h

theorem head_mem : head ∈ l := by
  cases h with
  | last h => exact mem_singleton_self _
  | cons h hl => exact mem_cons_self

theorem tail_mem : tail ∈ l := by
  induction h with
  | last h => exact mem_singleton_self _
  | cons h hl ih => exact mem_cons_of_mem _ ih

theorem congr (heq : ∀ x ∈ l, next' x = next x) : Linked next' tail head l := by
  induction h with
  | last h => exact .last ((heq _ (mem_singleton_self _)).trans h)
  | cons h hl ih =>
    exact .cons ((heq _ mem_cons_self).trans h)
      (ih fun x hx => heq x (mem_cons_of_mem _ hx))

theorem eq_cons (hn : next head = some b) : ∃ l', l = head :: l' ∧ Linked next tail b l' := by
  cases h with
  | last h =>
    rw [h] at hn
    cases hn
  | cons h hl =>
    rw [h] at hn
    cases hn
    exact ⟨_, rfl, hl⟩

theorem eq_singleton (hn : next head = none) : l = [head] := by
  cases h with
  | last h => rfl
  | cons h hl =>
    rw [h] at hn
    cases hn

theorem cells_eq {n : ℕ} (hn : l.length ≤ n) : cells next n (some head) = l := by
  induction h generalizing n with
  | last h =>
    obtain ⟨n, rfl⟩ := Nat.exists_eq_add_one.mpr hn
    rw [cells, h]
    cases n <;> rfl
  | cons h hl ih =>
    obtain ⟨n, rfl⟩ := Nat.exists_eq_add_one.mpr (Nat.lt_of_lt_of_le (Nat.succ_pos _) hn)
    rw [cells, h, ih (Nat.le_of_succ_le_succ hn)]

end

end Linked

namespace Queue

theorem congr (h : Queue next head tail l) (heq : ∀ x ∈ l, next' x = next x) :
    Queue next' head tail l :=
  ⟨h.linked.congr heq, h.nodup⟩

variable [DecidableEq α]

theorem pop (h : Queue next head tail l) (hn : next head = some b) :
    ∃ l', l = head :: l' ∧ Queue (update next head none) b tail l' := by
  obtain ⟨l', rfl, hl⟩ := h.linked.eq_cons hn
  obtain ⟨hout, hnodup⟩ := nodup_cons.mp h.nodup
  refine ⟨l', rfl, hl.congr fun x hx => update_of_ne ?_ _ _, hnodup⟩
  rintro rfl
  exact hout hx

theorem push (h : Queue next head tail l) (hb : b ∉ l) :
    Queue (update (update next b none) tail (some b)) head b (l ++ [b]) := by
  refine ⟨?_, nodup_append.mpr ⟨h.nodup, nodup_singleton b, ?_⟩⟩
  · obtain ⟨hl, hnodup⟩ := h
    induction hl with
    | last h =>
      have hne : b ≠ tail := ne_of_not_mem_cons hb
      refine .cons (update_self ..) (.last ?_)
      rw [update_of_ne hne, update_self]
    | @cons a c l h hl ih =>
      obtain ⟨hout, hnodup⟩ := nodup_cons.mp hnodup
      have hat : a ≠ tail := fun he => hout (he ▸ hl.tail_mem)
      have hab : a ≠ b := (ne_of_not_mem_cons hb).symm
      refine .cons ?_ (ih (not_mem_of_not_mem_cons hb) hnodup)
      rw [update_of_ne hat, update_of_ne hab, h]
  · intro x hx y hy he
    rw [mem_singleton] at hy
    exact hb (hy ▸ he ▸ hx)

end Queue

end LinkedQueue

namespace DList
open Function List
variable {ν : Type*}

structure Links (ν : Type*) where
  prev : ν → Option ν
  next : ν → Option ν

def Linked (L : Links ν) (u v : ν) : Prop := L.next u = some v ∧ L.prev v = some u

/-- A list between the ends `a` and `b`, linked both ways, in which no node comes twice. -/
structure IsList (L : Links ν) (a b : ν) (xs : List ν) : Prop where
  chain : (a :: (xs ++ [b])).IsChain (Linked L)
  nodup : (a :: (xs ++ [b])).Nodup

def Same (L L' : Links ν) (v : ν) : Prop := L'.prev v = L.prev v ∧ L'.next v = L.next v

variable {L L' : Links ν} {a b p n x : ν} {xs ys us vs : List ν}

theorem Linked.congr {u v : ν} (h : Linked L u v) (hn : L'.next u = L.next u)
    (hp : L'.prev v = L.prev v) : Linked L' u v :=
  ⟨hn.trans h.1, hp.trans h.2⟩

theorem IsList.congr (h : IsList L a b xs) (hs : ∀ v ∈ a :: (xs ++ [b]), Same L L' v) :
    IsList L' a b xs :=
  ⟨h.chain.imp_of_mem_imp fun u v hu hv hl => hl.congr (hs u hu).2 (hs v hv).1, h.nodup⟩

theorem splice (hus : (us ++ [p]).IsChain (Linked L)) (hvs : (n :: vs).IsChain (Linked L))
    (hxs : (p :: xs ++ [n]).IsChain (Linked L')) (hn : ∀ v ∈ us ++ n :: vs, L'.next v = L.next v)
    (hp : ∀ v ∈ us ++ p :: vs, L'.prev v = L.prev v) :
    (us ++ (p :: xs ++ n :: vs)).IsChain (Linked L') := by
  induction us with
  | nil =>
    have hsplit : (p :: xs ++ n :: vs).IsChain (Linked L') ↔ _ := isChain_split
    refine hsplit.mpr ⟨hxs, ?_⟩
    refine hvs.imp_of_mem_tail_imp fun u v hu hv hl => ?_
    exact hl.congr (hn u hu) (hp v (mem_cons_of_mem _ hv))
  | cons u us ih =>
    rw [cons_append, isChain_cons] at hus ⊢
    have hhead : (us ++ (p :: xs ++ n :: vs)).head? = (us ++ [p]).head? := by cases us <;> rfl
    refine ⟨fun y hy => ?_, ih hus.2 (fun v hv => hn v (mem_cons_of_mem _ hv))
      fun v hv => hp v (mem_cons_of_mem _ hv)⟩
    rw [hhead] at hy
    have hmem : y ∈ us ++ [p] := mem_of_mem_head? hy
    exact (hus.1 y hy).congr (hn u mem_cons_self) (hp y (by grind))

theorem exists_snoc (a : ν) (xs : List ν) : ∃ us p, a :: xs = us ++ [p] :=
  ⟨_, _, (dropLast_append_getLast (cons_ne_nil a xs)).symm⟩

theorem exists_cons (ys : List ν) (b : ν) : ∃ n vs, ys ++ [b] = n :: vs :=
  exists_cons_of_ne_nil (append_ne_nil_of_right_ne_nil _ (cons_ne_nil b []))

theorem ne_of_nodup (h : (us ++ p :: x :: n :: vs).Nodup) :
    (∀ v ∈ us ++ n :: vs, v ≠ p ∧ v ≠ x) ∧ ∀ v ∈ us ++ p :: vs, v ≠ n ∧ v ≠ x := by
  grind

section
variable [DecidableEq ν]

def enqueue (L : Links ν) (b x : ν) : Option (Links ν) := do
  let p ← L.prev b
  some {
    next := update (update L.next p (some x)) x (some b)
    prev := update (update L.prev x (some p)) b (some x) }

def detach (L : Links ν) (x : ν) : Option (Links ν) := do
  let p ← L.prev x
  let n ← L.next x
  some {
    next := update (update L.next p (some n)) x none
    prev := update (update L.prev n (some p)) x none }

/-- The node behind the end `a` is taken out, unless that is the end `b`. -/
def dequeue (L : Links ν) (a b : ν) : Option (Option ν × Links ν) := do
  let x ← L.next a
  if x = b then some (none, L)
  else
    let n ← L.next x
    some (some x, {
      next := update (update L.next a (some n)) x none
      prev := update (update L.prev n (some a)) x none })

theorem IsList.enqueue (h : IsList L a b xs) (hx : x ∉ a :: (xs ++ [b])) :
    ∃ L', enqueue L b x = some L' ∧ IsList L' a b (xs ++ [x]) ∧
      ∀ v, v ≠ x → v ∉ a :: (xs ++ [b]) → Same L L' v := by
  obtain ⟨us, p, hus⟩ := exists_snoc a xs
  have heq : a :: (xs ++ [b]) = us ++ p :: b :: [] := by
    rw [← cons_append, hus, append_assoc]
    rfl
  have hnew : a :: (xs ++ [x] ++ [b]) = us ++ (p :: [x] ++ b :: []) := by
    rw [append_assoc, ← cons_append, hus, append_assoc]
    rfl
  obtain ⟨hchain, hnd⟩ := h
  rw [heq] at hchain hnd hx ⊢
  obtain ⟨hpre, hpb, -⟩ := isChain_append_cons_cons.mp hchain
  have hnd' : (us ++ (p :: [x] ++ b :: [])).Nodup := by
    grind
  obtain ⟨hn, hp⟩ := ne_of_nodup hnd'
  refine ⟨_, by rw [DList.enqueue, hpb.2]; rfl, ⟨?_, hnew ▸ hnd'⟩, fun v hvx hv => ?_⟩
  · rw [hnew]
    refine splice hpre (isChain_singleton b) ?_ (fun v hv => ?_) fun v hv => ?_
    · have hxp : p ≠ x ∧ x ≠ b := by grind
      simp [Linked, hxp]
    · dsimp only
      rw [update_of_ne (hn v hv).2, update_of_ne (hn v hv).1]
    · dsimp only
      rw [update_of_ne (hp v hv).1, update_of_ne (hp v hv).2]
  · have hvp : v ≠ p ∧ v ≠ b := by grind
    simp [Same, hvx, hvp]

theorem IsList.detach (h : IsList L a b (xs ++ x :: ys)) :
    ∃ L', detach L x = some L' ∧ IsList L' a b (xs ++ ys) ∧
      ∀ v, v ∉ a :: (xs ++ x :: ys ++ [b]) → Same L L' v := by
  obtain ⟨us, p, hus⟩ := exists_snoc a xs
  obtain ⟨n, vs, hvs⟩ := exists_cons ys b
  have heq : a :: (xs ++ x :: ys ++ [b]) = us ++ p :: x :: n :: vs := by
    rw [append_assoc, cons_append, hvs, ← cons_append, hus, append_assoc]
    rfl
  have hnew : a :: (xs ++ ys ++ [b]) = us ++ (p :: [] ++ n :: vs) := by
    rw [append_assoc, hvs, ← cons_append, hus, append_assoc]
  obtain ⟨hchain, hnd⟩ := h
  rw [heq] at hchain hnd ⊢
  obtain ⟨hpre, hpx, hsuf⟩ := isChain_append_cons_cons.mp hchain
  obtain ⟨hxn, hsuf⟩ := isChain_cons_cons.mp hsuf
  obtain ⟨hn, hp⟩ := ne_of_nodup hnd
  refine ⟨_, by rw [DList.detach, hpx.2, hxn.1]; rfl, ⟨?_, ?_⟩, fun v hv => ?_⟩
  · rw [hnew]
    refine splice hpre hsuf ?_ (fun v hv => ?_) fun v hv => ?_
    · have hpx' : p ≠ x ∧ n ≠ x := ⟨(hp p (by simp)).2, (hn n (by simp)).2⟩
      simp [Linked, hpx']
    · dsimp only
      rw [update_of_ne (hn v hv).2, update_of_ne (hn v hv).1]
    · dsimp only
      rw [update_of_ne (hp v hv).2, update_of_ne (hp v hv).1]
  · rw [hnew]
    exact hnd.sublist ((sublist_cons_self x _).cons_cons p |>.append_left us)
  · have hv' : v ≠ p ∧ v ≠ x ∧ v ≠ n := by grind
    simp [Same, hv']

theorem IsList.dequeue_nil (h : IsList L a b []) : dequeue L a b = some (none, L) := by
  obtain ⟨hab, -⟩ := isChain_cons_cons.mp h.chain
  rw [dequeue, hab.1]
  simp

theorem IsList.dequeue_cons (h : IsList L a b (x :: xs)) :
    dequeue L a b = (DList.detach L x).map fun L' => (some x, L') := by
  have hne : x ≠ b := fun he => by
    have := (nodup_cons.mp h.nodup).2
    simp [he] at this
  obtain ⟨hax, hrest⟩ := isChain_cons_cons.mp h.chain
  obtain ⟨n, vs, hvs⟩ := exists_cons xs b
  change (x :: (xs ++ [b])).IsChain _ at hrest
  rw [hvs] at hrest
  obtain ⟨hxn, -⟩ := isChain_cons_cons.mp hrest
  simp [dequeue, DList.detach, hax.1, hax.2, hxn.1, hne]

end

end DList

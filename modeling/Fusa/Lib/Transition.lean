import Mathlib.Data.List.Basic
import Mathlib.Logic.Relation

/-! Labelled transition systems with computed steps, and programs that run until they halt. -/
namespace Transition
open List Option

/-- The states a run may start in, and the state a label leads to when it is enabled. -/
structure System (σ α : Type*) where
  start : σ → Prop
  next : σ → α → Option σ

namespace System
variable {σ α : Type*} {S : System σ α} {C D : σ → α → Prop}

/-- The states of the runs all of whose steps satisfy `C` before they are taken. -/
inductive RunWith (S : System σ α) (C : σ → α → Prop) : σ → Prop
  | start {s : σ} (h : S.start s) : RunWith S C s
  | step {s t : σ} (a : α) (h : RunWith S C s) (hc : C s a) (hn : S.next s a = some t) :
      RunWith S C t

def Reachable (S : System σ α) : σ → Prop := S.RunWith fun _ _ => True

variable {s t : σ} {P : σ → Prop} {τ β : Type*} {as : List α}

theorem Reachable.start (h : S.start s) : S.Reachable s := RunWith.start h

theorem Reachable.step (a : α) (h : S.Reachable s) (hn : S.next s a = some t) :
    S.Reachable t := RunWith.step a h trivial hn

theorem RunWith.invariant (h0 : ∀ s, S.start s → P s)
    (h1 : ∀ s a t, P s → C s a → S.next s a = some t → P t) (h : S.RunWith C s) : P s := by
  induction h with
  | start h => exact h0 _ h
  | step a _ hc hn ih => exact h1 _ a _ ih hc hn

theorem RunWith.mono (hCD : ∀ s a, C s a → D s a) (h : S.RunWith C s) : S.RunWith D s := by
  induction h with
  | start h => exact .start h
  | step a _ hc hn ih => exact .step a ih (hCD _ _ hc) hn

theorem RunWith.reachable (h : S.RunWith C s) : S.Reachable s := h.mono fun _ _ _ => trivial

theorem Reachable.invariant (h0 : ∀ s, S.start s → P s)
    (h1 : ∀ s a t, P s → S.next s a = some t → P t) (h : S.Reachable s) : P s :=
  RunWith.invariant h0 (fun s a t hp _ hn => h1 s a t hp hn) h

def exec (S : System σ α) (s : σ) (as : List α) : Option σ := as.foldlM S.next s

@[simp] theorem exec_nil (s : σ) : S.exec s [] = some s := rfl

theorem exec_cons (s : σ) (a : α) (as : List α) :
    S.exec s (a :: as) = (S.next s a).bind fun t => S.exec t as := by
  simp [exec, foldlM_cons]

/-- Forward simulation: the runs agree in the labels that `f` and `g` show. -/
theorem exec_simulates {γ : Type*} {T : System τ β} {R : σ → τ → Prop} {P : α → Prop}
    {f : α → Option γ} {g : β → Option γ} (h : ∀ s a t p, P a → S.next s a = some t → R s p →
      f a = none ∧ R t p ∨ ∃ b q, T.next p b = some q ∧ g b = f a ∧ R t q)
    (ha : ∀ a ∈ as, P a) (he : S.exec s as = some t) {p : τ} (hr : R s p) :
    ∃ bs q, T.exec p bs = some q ∧ bs.filterMap g = as.filterMap f ∧ R t q := by
  induction as generalizing s p with
  | nil =>
    cases he
    exact ⟨[], p, rfl, rfl, hr⟩
  | cons a as ih =>
    rw [exec_cons] at he
    obtain ⟨u, hu, ht⟩ := bind_eq_some_iff.mp he
    have hrest := fun {q} => ih (fun b hb => ha b (mem_cons_of_mem a hb)) ht (p := q)
    rcases h s a u p (ha a mem_cons_self) hu hr with ⟨hf, hr⟩ | ⟨b, q, hq, hg, hr⟩
    · obtain ⟨bs, q, hbs, hsame, hr⟩ := hrest hr
      exact ⟨bs, q, hbs, by rw [filterMap_cons, hf, hsame], hr⟩
    · obtain ⟨bs, q, hbs, hsame, hr⟩ := hrest hr
      refine ⟨b :: bs, q, by rw [exec_cons, hq]; exact hbs, ?_, hr⟩
      rw [filterMap_cons, filterMap_cons, hg, hsame]

/-- Every step of the list satisfies `C` in the state it is taken from. -/
def AllSteps (S : System σ α) (C : σ → α → Prop) : σ → List α → Prop
  | _, [] => True
  | s, a :: as => C s a ∧ ∀ t, S.next s a = some t → AllSteps S C t as

instance AllSteps.decidable [∀ s a, Decidable (C s a)] :
    ∀ s as, Decidable (S.AllSteps C s as)
  | _, [] => .isTrue trivial
  | s, a :: as =>
    haveI : Decidable (∀ t, S.next s a = some t → S.AllSteps C t as) :=
      match h : S.next s a with
      | none => .isTrue (by simp)
      | some t =>
        haveI := AllSteps.decidable t as
        decidable_of_iff (S.AllSteps C t as) (by simp)
    inferInstanceAs (Decidable (C s a ∧ _))

theorem AllSteps.and_forall {P : α → Prop} (h : S.AllSteps C s as) (hP : ∀ a ∈ as, P a) :
    S.AllSteps (fun s a => C s a ∧ P a) s as := by
  induction as generalizing s with
  | nil => trivial
  | cons a as ih =>
    exact ⟨⟨h.1, hP a mem_cons_self⟩,
      fun t ht => ih (h.2 t ht) fun b hb => hP b (mem_cons_of_mem a hb)⟩

theorem RunWith.exec (h : S.RunWith C s) (as : List α) (ha : S.AllSteps C s as)
    (he : S.exec s as = some t) : S.RunWith C t := by
  induction as generalizing s with
  | nil =>
    cases he
    exact h
  | cons a as ih =>
    rw [exec_cons] at he
    obtain ⟨u, hu, ht⟩ := bind_eq_some_iff.mp he
    exact ih (h.step a ha.1 hu) (ha.2 u hu) ht

theorem RunWith.exec_of_forall (h : S.RunWith C s) (hC : ∀ a ∈ as, ∀ s, C s a)
    (he : S.exec s as = some t) : S.RunWith C t := by
  refine h.exec as ?_ he
  clear h he
  induction as generalizing s with
  | nil => trivial
  | cons a as ih =>
    exact ⟨hC a (by simp) s, fun u _ => ih fun b hb => hC b (mem_cons_of_mem a hb)⟩

theorem Reachable.exec (h : S.Reachable s) (as : List α) (he : S.exec s as = some t) :
    S.Reachable t :=
  RunWith.exec_of_forall h (fun _ _ _ => trivial) he

theorem exists_runWith (S : System σ α) (C : σ → α → Prop) (P : σ → Prop) [DecidablePred P]
    (h : S.start s) (as : List α) (ha : S.AllSteps C s as)
    (hP : (S.exec s as).any (fun t => decide (P t))) :
    ∃ t, S.exec s as = some t ∧ S.RunWith C t ∧ P t := by
  obtain ⟨t, ht, hp⟩ := (any_eq_true _ _).mp hP
  exact ⟨t, ht, .exec (.start h) as ha ht, of_decide_eq_true hp⟩

theorem exists_reachable (S : System σ α) (P : σ → Prop) [DecidablePred P] (h : S.start s)
    (as : List α) (hP : (S.exec s as).any (fun t => decide (P t))) :
    ∃ t, S.exec s as = some t ∧ S.Reachable t ∧ P t := by
  obtain ⟨t, ht, hp⟩ := (any_eq_true _ _).mp hP
  exact ⟨t, ht, .exec (.start h) as ht, of_decide_eq_true hp⟩

theorem exec_frame {f : σ → β} {P : α → Prop} (hf : ∀ s a t, P a → S.next s a = some t → f t = f s)
    (ha : ∀ a ∈ as, P a) (he : S.exec s as = some t) : f t = f s := by
  induction as generalizing s with
  | nil =>
    cases he
    rfl
  | cons a as ih =>
    rw [exec_cons] at he
    obtain ⟨u, hu, ht⟩ := bind_eq_some_iff.mp he
    exact (ih (fun b hb => ha b (mem_cons_of_mem a hb)) ht).trans
      (hf s a u (ha a mem_cons_self) hu)

theorem RunWith.lift {R : τ → τ → Prop} {f : τ → σ} {p q : τ} (a : α) (hC : ∀ s, C s a)
    (hn : ∀ p q, R p q → S.next (f p) a = some (f q)) (h : S.RunWith C (f p))
    (hr : Relation.ReflTransGen R p q) : S.RunWith C (f q) := by
  induction hr with
  | refl => exact h
  | tail _ hstep ih => exact ih.step a (hC _) (hn _ _ hstep)

def Reaches (S : System σ α) (s t : σ) : Prop := ∃ as, S.exec s as = some t

theorem Reaches.refl (s : σ) : S.Reaches s s := ⟨[], rfl⟩

theorem Reaches.trans {u : σ} (h : S.Reaches s t) (h' : S.Reaches t u) : S.Reaches s u := by
  obtain ⟨as, has⟩ := h
  obtain ⟨bs, hbs⟩ := h'
  refine ⟨as ++ bs, ?_⟩
  unfold exec at has hbs ⊢
  rwa [foldlM_append, has]

theorem Reaches.step (a : α) (h : S.next s a = some t) : S.Reaches s t :=
  ⟨[a], by rw [exec_cons, h]; rfl⟩

theorem Reaches.count {f : ℕ → σ} {N : ℕ} (h0 : f 0 = s)
    (h : ∀ k < N, S.Reaches (f k) (f (k + 1))) : ∀ n ≤ N, S.Reaches s (f n) := by
  intro n hn
  induction n with
  | zero => exact h0 ▸ .refl _
  | succ n ih => exact (ih (by omega)).trans (h n hn)

theorem Reachable.reaches (h : S.Reachable s) (hr : S.Reaches s t) : S.Reachable t := by
  obtain ⟨as, has⟩ := hr
  exact h.exec as has

theorem allSteps_congr (h : ∀ s a, C s a ↔ D s a) (s : σ) (as : List α) :
    S.AllSteps C s as ↔ S.AllSteps D s as := by
  induction as generalizing s with
  | nil => exact Iff.rfl
  | cons a as ih => simp only [AllSteps, h, ih]

/-- A property that each step keeps exactly when the step satisfies `C`. -/
theorem exec_iff_allSteps (h : ∀ s a t, S.next s a = some t → (P t ↔ P s ∧ C s a))
    (he : S.exec s as = some t) : P t ↔ P s ∧ S.AllSteps C s as := by
  induction as generalizing s with
  | nil =>
    cases he
    simp [AllSteps]
  | cons a as ih =>
    rw [exec_cons] at he
    obtain ⟨u, hu, ht⟩ := bind_eq_some_iff.mp he
    rw [ih ht, h s a u hu]
    simp [AllSteps, hu, and_assoc]

/-- `P` holds in every state that the steps pass through. -/
def Along (S : System σ α) (P : σ → Prop) (s : σ) (as : List α) : Prop :=
  ∀ bs, bs <+: as → ∀ t, S.exec s bs = some t → P t

/-- The property holds along the steps exactly when they satisfy `C`: it follows from `I`, which
steps in `C` keep, and no other step keeps the property. -/
theorem along_iff_allSteps {I : σ → Prop} (hP : ∀ s, I s → P s)
    (hC : ∀ s a t, I s → C s a → S.next s a = some t → I t)
    (hbad : ∀ s a, I s → (∀ t, S.next s a = some t → P t) → C s a) (hs : I s) (as : List α) :
    S.Along P s as ↔ S.AllSteps C s as := by
  induction as generalizing s with
  | nil =>
    refine iff_of_true ?_ trivial
    intro bs hbs t ht
    rw [prefix_nil.mp hbs, exec_nil] at ht
    cases ht
    exact hP s hs
  | cons a as ih =>
    constructor
    · intro h
      have hca : C s a := by
        refine hbad s a hs fun t ht => h [a] (by simp) t ?_
        rw [exec_cons, ht]
        rfl
      refine ⟨hca, fun t ht => (ih (hC s a t hs hca ht)).mp fun bs hbs u hu => ?_⟩
      refine h (a :: bs) (cons_prefix_cons.mpr ⟨rfl, hbs⟩) u ?_
      rwa [exec_cons, ht]
    · intro h bs hbs t ht
      cases bs with
      | nil =>
        cases ht
        exact hP s hs
      | cons b bs =>
        obtain ⟨rfl, hbs'⟩ := cons_prefix_cons.mp hbs
        rw [exec_cons] at ht
        obtain ⟨u, hu, ht⟩ := bind_eq_some_iff.mp ht
        exact (ih (hC s b u hs h.1 hu)).mpr (h.2 u hu) bs hbs' t ht

end System
end Transition

namespace Machine
variable {σ : Type*} (f : σ → Option σ)

def run : ℕ → σ → σ
  | 0, s => s
  | n + 1, s =>
    match f s with
    | none => s
    | some t => run n t

variable {f} {n : ℕ} {s t : σ}

theorem run_step (h : f s = some t) : run f (n + 1) s = run f n t := by
  simp [run, h]

theorem run_halted (h : f s = none) : run f n s = s := by
  cases n with
  | zero => rfl
  | succ n => simp [run, h]

def Reaches (f : σ → Option σ) : σ → σ → Prop := Relation.ReflTransGen fun s t => f s = some t

theorem reaches_run (n : ℕ) : Reaches f s (run f n s) := by
  induction n generalizing s with
  | zero => exact .refl
  | succ n ih =>
    cases h : f s with
    | none =>
      rw [run_halted h]
      exact .refl
    | some t =>
      rw [run_step h]
      exact .head h ih

theorem run_add_of_halted (h : run f n s = t) (ht : f t = none) (k : ℕ) : run f (n + k) s = t := by
  induction n generalizing s with
  | zero =>
    cases h
    exact run_halted ht
  | succ n ih =>
    rw [Nat.add_right_comm]
    cases hs : f s with
    | none => rwa [run_halted hs] at h ⊢
    | some u =>
      rw [run_step hs] at h ⊢
      exact ih h

theorem exists_run_eq (h : Reaches f s t) : ∃ n, run f n s = t := by
  induction h using Relation.ReflTransGen.head_induction_on with
  | refl => exact ⟨0, rfl⟩
  | head hstep _ ih =>
    obtain ⟨n, hn⟩ := ih
    exact ⟨n + 1, (run_step hstep).trans hn⟩

theorem exists_reaches {I done : σ → Prop} (rank : σ → ℕ)
    (h : ∀ s, I s → ¬ done s → ∃ t, f s = some t ∧ I t ∧ rank t < rank s) (hs : I s) :
    ∃ t, Reaches f s t ∧ I t ∧ done t := by
  induction hr : rank s using Nat.strongRecOn generalizing s with
  | _ n ih =>
    by_cases hd : done s
    · exact ⟨s, .refl, hs, hd⟩
    · obtain ⟨t, hst, ht, hlt⟩ := h s hs hd
      obtain ⟨u, htu, hu⟩ := ih _ (hr ▸ hlt) ht rfl
      exact ⟨u, .head hst htu, hu⟩

end Machine

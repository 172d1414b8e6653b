import Fusa.Driver.CqRing

/-! `__mlx5_cq_clean`: the completions of one resource are taken out of the ring by a sweep that
moves older ones up. -/
namespace Fusa.Driver.CompletionQueue
open Function List Nat

def Cqe.isResponder (c : Cqe) : Bool := c.opcode ∈ [1, 2, 3, 4, 14]

/-- The test of `free_res_cqe` for the resource. -/
def Cqe.isOf (version : Bool) (rsn : ℕ) (c : Cqe) : Bool :=
  rsn = (if version then c.srqnUidx else c.sopDropQpn) % 2 ^ 24

/-- The completion has used a WQE of the SRQ. In version 0 it names the SRQ then. -/
def Cqe.usesSrq (version : Bool) (c : Cqe) : Bool :=
  if version then c.isResponder else c.srqnUidx % 2 ^ 24 ≠ 0

/-- The call of `mlx5_free_srq_wqe` for a completion, if there is an SRQ. -/
def Cqe.freed (version : Bool) (rsn : ℕ) (srq : Bool) (c : Cqe) : List UInt16 :=
  if c.isOf version rsn ∧ srq ∧ c.usesSrq version then [c.wqeCounter] else []

/-- `released` are the calls of `mlx5_free_srq_wqe`. -/
structure Sweep where
  buf : ℕ → Entry
  nfreed : ℕ
  released : List UInt16

/-- The destination keeps its owner bit. -/
def copyCqe (buf : ℕ → Entry) (dest src : ℕ) : ℕ → Entry :=
  update buf dest ⟨(buf dest).own, (buf src).cqe⟩

namespace Cq
variable (cq : Cq)

/-- The loop for the producer index. It leaves by itself within `cqe + 1` turns. -/
def findProd : ℕ → UInt32 → UInt32
  | 0, prod => prod
  | fuel + 1, prod =>
    if (cq.getSwCqe prod.toNat).isSome then
      if prod = cq.cons + .ofNat (2 ^ cq.log - 1) then prod else findProd fuel (prod + 1)
    else prod

variable (version : Bool) (rsn : ℕ) (srq : Bool)

/-- The body of the sweep, with `free_res_cqe`. -/
def visit (prod : UInt32) (s : Sweep) : Sweep :=
  if (s.buf (cq.slot prod.toNat)).cqe.isOf version rsn then
    { s with
      nfreed := s.nfreed + 1
      released := s.released ++ (s.buf (cq.slot prod.toNat)).cqe.freed version rsn srq }
  else if s.nfreed ≠ 0 then
    { s with buf := copyCqe s.buf (cq.slot (prod + .ofNat s.nfreed).toNat) (cq.slot prod.toNat) }
  else s

/-- The sweep. The difference of two `int`s is not negative when it is below half the range. -/
def sweep : ℕ → UInt32 → Sweep → Sweep
  | 0, _, s => s
  | fuel + 1, prod, s =>
    if (prod - 1 - cq.cons).toNat < 2 ^ 31 then
      sweep fuel (prod - 1) (cq.visit version rsn srq (prod - 1) s)
    else s

/-- `__mlx5_cq_clean`: the queue and the WQEs released to the SRQ, if there is one. -/
def clean (fuel : ℕ) : Cq × List UInt16 :=
  let s := cq.sweep version rsn srq fuel (cq.findProd (2 ^ cq.log) cq.cons) ⟨cq.buf, 0, []⟩
  ({ cq with buf := s.buf, cons := cq.cons + .ofNat s.nfreed }, s.released)

end Cq

section
variable {cq : Cq} {c n : ℕ} {xs : List Cqe} {version : Bool} {rsn : ℕ} {srq : Bool}

theorem findProd_eq (h : Holds cq c xs) (hlt : xs.length < 2 ^ cq.log) (fuel i : ℕ)
    (hi : i ≤ xs.length) (hfuel : xs.length - i < fuel) :
    cq.findProd fuel (.ofNat (c + i)) = .ofNat (c + xs.length) := by
  have hlog : 2 ^ cq.log < 2 ^ 32 := Nat.pow_lt_pow_right (by decide) (by have := cq.log_lt; omega)
  induction fuel generalizing i with
  | zero => omega
  | succ fuel ih =>
    rw [Cq.findProd, UInt32.toNat_ofNat', getSwCqe_mod, h.recognised i (by omega)]
    rcases hi.lt_or_eq with hi | rfl
    · have hne : UInt32.ofNat (c + i) ≠ cq.cons + .ofNat (2 ^ cq.log - 1) := by
        intro he
        rw [h.cons, UInt32.ofNat_add, UInt32.add_right_inj] at he
        have := congrArg UInt32.toNat he
        rw [UInt32.toNat_ofNat_of_lt' (by simp [UInt32.size]; omega),
          UInt32.toNat_ofNat_of_lt' (by simp [UInt32.size]; omega)] at this
        omega
      rw [if_pos (by simp [hi]), if_neg hne]
      have := ih (i + 1) hi (by omega)
      rw [← add_assoc, UInt32.ofNat_add] at this
      exact this
    · simp

/-- `ys` are still to be looked at; then come `m` entries to fill, and `zs`, which stay. -/
structure Swept (cq : Cq) (c : ℕ) (ys : List Cqe) (m : ℕ) (zs : List Cqe) (buf : ℕ → Entry) :
    Prop where
  own : ∀ i, (buf i).own = (cq.buf i).own
  todo : ∀ t < ys.length, ys[t]? = some (buf (cq.slot (c + t))).cqe
  kept : ∀ t < zs.length, zs[t]? = some (buf (cq.slot (c + (ys.length + m + t)))).cqe
  rest : ∀ t, ys.length + m + zs.length ≤ t → t < 2 ^ cq.log →
    buf (cq.slot (c + t)) = cq.buf (cq.slot (c + t))

section
variable {ys zs : List Cqe} {x : Cqe} {m : ℕ} {buf : ℕ → Entry}

section
variable (h : Swept cq c (ys ++ [x]) m zs buf)
include h

theorem Swept.last : (buf (cq.slot (c + ys.length))).cqe = x := by
  simpa using (h.todo ys.length (by simp)).symm

theorem Swept.skip : Swept cq c ys (m + 1) zs buf := by
  have hlen : (ys ++ [x]).length + m = ys.length + (m + 1) := by simp; omega
  refine ⟨h.own, fun t ht => ?_, ?_, ?_⟩
  · rw [← h.todo t (by simp; omega), List.getElem?_append_left ht]
  · rw [← hlen]
    exact h.kept
  · rw [← hlen]
    exact h.rest

theorem Swept.move (hlt : ys.length + 1 + m + zs.length < 2 ^ cq.log) : Swept cq c ys m (x :: zs)
      (copyCqe buf (cq.slot (c + (ys.length + m))) (cq.slot (c + ys.length))) := by
  have hs := h.skip
  have hne : ∀ t < 2 ^ cq.log, t ≠ ys.length + m →
      copyCqe buf (cq.slot (c + (ys.length + m))) (cq.slot (c + ys.length)) (cq.slot (c + t)) =
        buf (cq.slot (c + t)) :=
    fun t ht hne => update_of_ne (fun he => hne (slot_inj ht (by omega) he)) ..
  refine ⟨fun i => ?_, fun t ht => ?_, fun t ht => ?_, fun t ht hlog => ?_⟩
  · unfold copyCqe
    rcases eq_or_ne i (cq.slot (c + (ys.length + m))) with rfl | hi
    · rw [update_self, h.own]
    · rw [update_of_ne hi, h.own]
  · rw [hs.todo t ht, hne t (by omega) (by omega)]
  · rw [length_cons] at ht
    cases t with
    | zero =>
      rw [add_zero, copyCqe, update_self, h.last]
      rfl
    | succ t =>
      rw [hne _ (by omega) (by omega), List.getElem?_cons_succ, hs.kept t (by omega),
        show ys.length + (m + 1) + t = ys.length + m + (t + 1) by omega]
  · rw [length_cons] at ht
    rw [hne t hlog (by omega), hs.rest t (by omega) hlog]

end

end

theorem sweep_spec (version : Bool) (rsn : ℕ) (srq : Bool) {fuel : ℕ} {ys zs : List Cqe}
    {s : Sweep} (hcons : cq.cons = .ofNat c) (h : Swept cq c ys s.nfreed zs s.buf)
    (hlt : ys.length + s.nfreed + zs.length < 2 ^ cq.log) (hfuel : ys.length < fuel) :
    let s' := cq.sweep version rsn srq fuel (.ofNat (c + ys.length)) s
    Swept cq c [] s'.nfreed (ys.filter (!·.isOf version rsn) ++ zs) s'.buf ∧
      s'.nfreed = s.nfreed + ys.countP (·.isOf version rsn) ∧
      s'.released = s.released ++ ys.reverse.flatMap (·.freed version rsn srq) := by
  have hlog : 2 ^ cq.log < 2 ^ 31 := Nat.pow_lt_pow_right (by decide) cq.log_lt
  induction fuel generalizing ys zs s with
  | zero => omega
  | succ fuel ih =>
    rcases eq_nil_or_concat' ys with rfl | ⟨ys, x, rfl⟩
    · have hend : (UInt32.ofNat c - 1 - cq.cons).toNat = 2 ^ 32 - 1 := by
        rw [hcons, sub_right_comm, sub_self]
        rfl
      simp only [length_nil, add_zero, Cq.sweep, hend]
      exact ⟨by simpa using h, by simp, by simp⟩
    · rw [length_append, length_singleton] at hlt hfuel ⊢
      have hprod : UInt32.ofNat (c + (ys.length + 1)) - 1 = .ofNat (c + ys.length) := by
        rw [← add_assoc, UInt32.ofNat_add]
        exact UInt32.add_sub_cancel _ _
      have hdiff : (UInt32.ofNat (c + ys.length) - cq.cons).toNat = ys.length := by
        rw [hcons, UInt32.ofNat_add, UInt32.add_comm, UInt32.add_sub_cancel,
          UInt32.toNat_ofNat_of_lt' (by simp [UInt32.size]; omega)]
      rw [Cq.sweep, hprod, hdiff, if_pos (by omega), Cq.visit, ← UInt32.ofNat_add,
        UInt32.toNat_ofNat', UInt32.toNat_ofNat', slot_mod, slot_mod, h.last, add_assoc]
      by_cases hof : x.isOf version rsn
      · rw [if_pos hof]
        obtain ⟨h1, h2, h3⟩ := ih (s := ⟨s.buf, s.nfreed + 1, _⟩) h.skip (by simp; omega) (by omega)
        refine ⟨by simpa [hof] using h1, ?_, ?_⟩
        · rw [h2]
          simp [hof]
          omega
        · rw [h3]
          simp
      · -- without a gap the completion stays where it is
        have hstay : ¬ s.nfreed ≠ 0 → copyCqe s.buf (cq.slot (c + (ys.length + s.nfreed)))
            (cq.slot (c + ys.length)) = s.buf := fun hm => by
          rw [not_not.mp hm, add_zero, copyCqe, update_eq_self]
        rw [if_neg hof, ite_eq_left_iff.mpr fun hm => by rw [hstay hm]]
        have hih : ∀ buf, Swept cq c ys s.nfreed (x :: zs) buf → _ := fun buf hb =>
          ih (s := ⟨buf, s.nfreed, s.released⟩) hb (by simp only [length_cons]; omega)
            (by omega)
        obtain ⟨h1, h2, h3⟩ := hih _ (h.move hlt)
        refine ⟨by simpa [hof] using h1, ?_, ?_⟩
        · rw [h2]
          simp [hof]
        · rw [h3]
          simp [Cqe.freed, hof]

theorem Swept.holds {zs : List Cqe} {m : ℕ} {buf : ℕ → Entry} (hs : Swept cq c [] m zs buf)
    (h : Holds cq c xs) (hsum : m + zs.length = xs.length) (hsub : ∀ z ∈ zs, z ∈ xs) :
    Holds { cq with buf, cons := cq.cons + .ofNat m } (c + m) zs := by
  have hle := h.length_le
  have hown : ∀ t < xs.length, (buf (cq.slot (c + t))).own = cq.lap (c + t) := fun t ht => by
    rw [hs.own, (h.entry (List.getElem?_eq_getElem ht)).2]
  refine ⟨by rw [h.cons, UInt32.ofNat_add], by dsimp only; omega, fun t ht => ?_⟩
  dsimp only at ht
  rw [add_assoc]
  rcases lt_or_ge t zs.length with hk | hk
  · have hz := hs.kept t hk
    rw [length_nil, zero_add] at hz
    obtain ⟨i, hi⟩ := mem_iff_getElem?.mp (hsub _ (mem_of_getElem? hz))
    rw [hz, getSwCqe_eq_some]
    refine ⟨(h.entry hi).1, ?_⟩
    change buf (cq.slot _) = ⟨cq.lap _, _⟩
    rw [← hown (m + t) (by omega)]
  · rw [List.getElem?_eq_none hk]
    rcases lt_or_ge (m + t) (2 ^ cq.log) with hlt | hge
    · have hold := (h.recognised _ hlt).trans (List.getElem?_eq_none (by omega))
      rw [Cq.getSwCqe] at hold ⊢
      rwa [← hs.rest (m + t) (by simp; omega) hlt] at hold
    · -- an entry that the poller has passed by
      obtain ⟨u, hu⟩ := Nat.exists_eq_add_of_le' hge
      rw [hu, ← add_assoc]
      exact getSwCqe_next_lap (hown u (by omega))

/-- `__mlx5_cq_clean` takes out the completions of the resource, and releases each WQE once. -/
theorem clean_play {fuel : ℕ} {es : List Event} (h : Holds cq c xs)
    (hlt : xs.length ≤ 2 ^ cq.log - 1) (hfuel : 2 ^ cq.log ≤ fuel)
    (hes : Fits (2 ^ cq.log) es (xs.filter (!·.isOf version rsn)).length) :
    (cq.clean version rsn srq fuel).1.play es (.ofNat (c + xs.length)) =
        fifo es (xs.filter (!·.isOf version rsn)) ∧
      (cq.clean version rsn srq fuel).2 = xs.reverse.flatMap (·.freed version rsn srq) := by
  have hlt : xs.length < 2 ^ cq.log := by have := Nat.two_pow_pos cq.log; omega
  have hprod := findProd_eq h hlt (2 ^ cq.log) 0 (zero_le _) (by omega)
  rw [add_zero, ← h.cons] at hprod
  have hstart : Swept cq c xs 0 [] cq.buf := by
    refine ⟨fun _ => rfl, fun t ht => ?_, fun t ht => absurd ht (not_lt_zero t),
      fun _ _ _ => rfl⟩
    rw [(h.entry (List.getElem?_eq_getElem ht)).2, List.getElem?_eq_getElem ht]
  have hsweep := sweep_spec (s := ⟨cq.buf, 0, []⟩) version rsn srq h.cons hstart hlt
    (lt_of_lt_of_le hlt hfuel)
  rw [← hprod, zero_add, append_nil, nil_append] at hsweep
  obtain ⟨h1, h2, h3⟩ := hsweep
  have hsum : xs.countP (·.isOf version rsn) + (xs.filter (!·.isOf version rsn)).length =
      xs.length := by
    rw [← countP_eq_length_filter, xs.length_eq_countP_add_countP (·.isOf version rsn)]
    simp
  rw [← h2] at hsum
  have hnow := (h1.holds h hsum fun z hz => mem_of_mem_filter hz).play hes
  rw [add_assoc, hsum] at hnow
  exact ⟨hnow, h3⟩

end

def received (rsn : ℕ) (counter : UInt16) : Cqe := ⟨2, rsn, 0, counter, []⟩

/-- Completions at the indices 2^32 - 2, 2^32 - 1 and 2^32; that in entry 1 is of the lap before. -/
def atWrap : Cq :=
  { beforeResize with
    buf := fun i => [⟨false, received 7 3⟩, ⟨true, received 5 0⟩, ⟨true, received 6 1⟩].getD i
      ⟨true, received 5 2⟩ }

theorem clean_play_atWrap :
    (atWrap.clean true 5 true 4).1.play [.poll, .poll, .write (received 6 9), .poll, .poll]
        (.ofNat (0xfffffffe + 3)) =
        [some (received 6 1), some (received 7 3), some (received 6 9), none] ∧
      (atWrap.clean true 5 true 4).2 = [2] :=
  clean_play (⟨rfl, by decide, by decide⟩ :
    Holds atWrap 0xfffffffe [received 6 1, received 5 2, received 7 3]) (by decide) (by decide)
    ⟨by decide, by decide, trivial⟩

end Fusa.Driver.CompletionQueue

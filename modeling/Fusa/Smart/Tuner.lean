import Mathlib.Data.List.Count
import Mathlib.Tactic.Ring

/-! The tuner thread, which looks for the best number of outstanding requests. -/
namespace Fusa.Smart
open List

def kInfCreditValue : ℤ := 256

/-- `infWins` compares the best sample with that at infinite credit, by `inf_credit_weight`. -/
structure TunerSettings where
  creditStep : ℤ
  initialCredit : ℤ
  maxCredit : ℤ
  executionEpochs : ℤ
  infWins : ℕ → ℕ → Bool

structure TunerConfig extends TunerSettings where
  step_pos : 0 < creditStep
  initial_pos : 1 ≤ initialCredit
  initial_le : initialCredit ≤ maxCredit
  max_lt : maxCredit < 256

instance : Coe TunerConfig TunerSettings := ⟨TunerConfig.toTunerSettings⟩

/-- The variables of `tuner_func`; of `ack_req_list`, the indices written in this training. -/
structure Tuner where
  creditBound : ℤ
  isTraining : Bool
  execEpochs : ℤ
  bestAckReq : ℕ
  bestMaxCredit : ℤ
  sampled : List ℤ
deriving DecidableEq, Repr

namespace Tuner
variable (cfg : TunerSettings)

def start : Tuner := ⟨cfg.initialCredit, true, 0, 0, -1, []⟩

def creditDelta (t : Tuner) (ackReqSum : ℕ) : ℤ :=
  if ackReqSum = 0 then 0
  else if t.isTraining = false then
    if t.execEpochs + 1 = cfg.executionEpochs then cfg.initialCredit - t.creditBound else 0
  else if t.creditBound = kInfCreditValue then
    if cfg.infWins t.bestAckReq ackReqSum then 0 else t.bestMaxCredit - t.creditBound
  else if t.creditBound = cfg.maxCredit then kInfCreditValue - t.creditBound
  else cfg.creditStep

def epoch (t : Tuner) (ackReqSum : ℕ) : Tuner :=
  if ackReqSum = 0 then t
  else if t.isTraining = false then
    if t.execEpochs + 1 = cfg.executionEpochs then
      ⟨cfg.initialCredit, true, t.execEpochs + 1, 0, -1, []⟩
    else { t with execEpochs := t.execEpochs + 1 }
  else if t.creditBound = kInfCreditValue then
    { t with
      creditBound := if cfg.infWins t.bestAckReq ackReqSum then t.creditBound else t.bestMaxCredit
      isTraining := false
      execEpochs := 0 }
  else
    { t with
      sampled := t.sampled ++ [t.creditBound]
      bestAckReq := if t.bestAckReq < ackReqSum then ackReqSum else t.bestAckReq
      bestMaxCredit := if t.bestAckReq < ackReqSum then t.creditBound else t.bestMaxCredit
      creditBound := t.creditBound + creditDelta cfg t ackReqSum }

def run (t : Tuner) (sums : List ℕ) : Tuner := sums.foldl (epoch cfg) t

/-- Enough samples take the training to the bound `b`. -/
def Reaches (t : Tuner) (b : ℤ) : Prop :=
  ∃ n, ∀ sums : List ℕ, n ≤ sums.countP (0 < ·) →
    ∃ first, first <+: sums ∧ (run cfg t first).isTraining = true ∧
      (run cfg t first).creditBound = b

/-- Bound and indices are in range, finite choices sampled, and a training gets to both ends. -/
structure InRange (t : Tuner) : Prop where
  bound : 1 ≤ t.creditBound ∧ t.creditBound ≤ 256
  index : ∀ i ∈ t.sampled, 0 ≤ i ∧ i < 256
  choice : t.isTraining = false → t.creditBound ≠ kInfCreditValue → t.creditBound ∈ t.sampled
  full : t.isTraining = true → t.creditBound ≠ kInfCreditValue →
    Reaches cfg t cfg.maxCredit ∧ Reaches cfg t kInfCreditValue

variable {cfg} {t : Tuner} {sum : ℕ}

theorem creditBound_epoch (cfg : TunerSettings) (t : Tuner) (sum : ℕ) :
    (epoch cfg t sum).creditBound = t.creditBound + creditDelta cfg t sum := by
  unfold epoch creditDelta
  split_ifs <;> simp

@[simp] theorem run_nil : run cfg t [] = t := rfl

@[simp] theorem run_cons (sums : List ℕ) :
    run cfg t (sum :: sums) = run cfg (epoch cfg t sum) sums := rfl

@[simp] theorem epoch_zero : epoch cfg t 0 = t := by simp [epoch]

theorem epoch_cases (cfg : TunerSettings) (t : Tuner) (hs : 0 < sum) :
    (t.isTraining = false ∧ epoch cfg t sum =
      ⟨cfg.initialCredit, true, t.execEpochs + 1, 0, -1, []⟩) ∨
    (t.isTraining = false ∧ epoch cfg t sum = { t with execEpochs := t.execEpochs + 1 }) ∨
    (t.isTraining = true ∧ t.creditBound = kInfCreditValue ∧
      ∃ b, (b = t.creditBound ∨ b = t.bestMaxCredit) ∧ epoch cfg t sum =
        { t with creditBound := b, isTraining := false, execEpochs := 0 }) ∨
    (t.isTraining = true ∧ t.creditBound ≠ kInfCreditValue ∧
      ∃ best b, (best = sum ∧ b = t.creditBound ∨
          0 < t.bestAckReq ∧ best = t.bestAckReq ∧ b = t.bestMaxCredit) ∧
        epoch cfg t sum =
          { t with
            sampled := t.sampled ++ [t.creditBound]
            bestAckReq := best
            bestMaxCredit := b
            creditBound := if t.creditBound = cfg.maxCredit then kInfCreditValue
              else t.creditBound + cfg.creditStep }) := by
  have hz : ¬ sum = 0 := by omega
  unfold epoch
  rw [if_neg hz]
  cases ht : t.isTraining with
  | false =>
    rw [if_pos rfl]
    by_cases hl : t.execEpochs + 1 = cfg.executionEpochs
    · rw [if_pos hl]
      exact .inl ⟨rfl, rfl⟩
    · rw [if_neg hl]
      exact .inr (.inl ⟨rfl, rfl⟩)
  | true =>
    rw [if_neg (by simp)]
    by_cases hi : t.creditBound = kInfCreditValue
    · rw [if_pos hi]
      refine .inr (.inr (.inl ⟨rfl, hi, _, ?_, rfl⟩))
      split_ifs
      · exact .inl rfl
      · exact .inr rfl
    · rw [if_neg hi]
      refine .inr (.inr (.inr ⟨rfl, hi, if t.bestAckReq < sum then sum else t.bestAckReq,
        if t.bestAckReq < sum then t.creditBound else t.bestMaxCredit, ?_, ?_⟩))
      · split_ifs with hb
        · exact .inl ⟨rfl, rfl⟩
        · exact .inr ⟨by omega, rfl, rfl⟩
      · have hd : t.creditBound + creditDelta cfg t sum =
            if t.creditBound = cfg.maxCredit then kInfCreditValue
              else t.creditBound + cfg.creditStep := by
          unfold creditDelta
          rw [if_neg hz, ht, if_neg (by simp), if_neg hi]
          split_ifs <;> omega
        rw [hd]

/-! ### When the steps meet `max_credit` -/

variable {cfg : TunerConfig}

/-- A bound on the way from `initial_credit` to `max_credit`. -/
def OnWay (cfg : TunerConfig) (b : ℤ) : Prop :=
  cfg.initialCredit ≤ b ∧ b ≤ cfg.maxCredit ∧ cfg.creditStep ∣ cfg.maxCredit - b

variable {b : ℤ} {n : ℕ}

theorem OnWay.ne_inf (h : OnWay cfg b) : b ≠ kInfCreditValue := by
  have := cfg.max_lt
  have := h.2.1
  unfold kInfCreditValue
  omega

theorem OnWay.add_step (h : OnWay cfg b) (hb : b ≠ cfg.maxCredit) :
    OnWay cfg (b + cfg.creditStep) := by
  have hle := Int.le_of_dvd (by have := h.2.1; omega) h.2.2
  refine ⟨by have := h.1; have := cfg.step_pos; omega, by omega, ?_⟩
  have : cfg.maxCredit - (b + cfg.creditStep) = cfg.maxCredit - b - cfg.creditStep := by ring
  rw [this]
  exact Int.dvd_sub h.2.2 (Int.dvd_refl _)

structure Sound (cfg : TunerConfig) (t : Tuner) : Prop where
  sampled : ∀ i ∈ t.sampled, OnWay cfg i
  bound : t.isTraining = true → t.creditBound = kInfCreditValue ∨ OnWay cfg t.creditBound
  best : t.isTraining = true → (t.bestAckReq = 0 ∧ t.creditBound ≠ kInfCreditValue) ∨
    (0 < t.bestAckReq ∧ t.bestMaxCredit ∈ t.sampled)
  choice : t.isTraining = false → t.creditBound = kInfCreditValue ∨ t.creditBound ∈ t.sampled

section
variable (hd : cfg.creditStep ∣ cfg.maxCredit - cfg.initialCredit)
include hd

theorem sound_fresh (n : ℤ) : Sound cfg ⟨cfg.initialCredit, true, n, 0, -1, []⟩ := by
  have hway : OnWay cfg cfg.initialCredit := ⟨Int.le_refl _, cfg.initial_le, hd⟩
  exact ⟨by simp, fun _ => .inr hway, fun _ => .inl ⟨rfl, hway.ne_inf⟩, by simp⟩

theorem Sound.epoch (h : Sound cfg t) (sum : ℕ) : Sound cfg (epoch cfg t sum) := by
  rcases Nat.eq_zero_or_pos sum with rfl | hs
  · rwa [epoch_zero]
  rcases epoch_cases cfg t hs with ⟨-, he⟩ | ⟨ht, he⟩ | ⟨ht, hi, b, hb, he⟩ |
      ⟨ht, hi, best, b, hb, he⟩
  · rw [he]
    exact sound_fresh hd _
  · rw [he]
    exact ⟨h.sampled, h.bound, h.best, h.choice⟩
  · rw [he]
    refine ⟨h.sampled, by simp, by simp, fun _ => ?_⟩
    rcases hb with rfl | rfl
    · exact .inl hi
    · rcases h.best ht with ⟨-, hne⟩ | ⟨-, hmem⟩
      · exact absurd hi hne
      · exact .inr hmem
  · have hway := (h.bound ht).resolve_left hi
    rw [he]
    refine ⟨?_, fun _ => ?_, fun _ => .inr ⟨?_, ?_⟩, by simp [ht]⟩
    · simp only [mem_append, mem_singleton]
      rintro i (hi | rfl)
      · exact h.sampled i hi
      · exact hway
    · dsimp only
      split_ifs with hmax
      · exact .inl rfl
      · exact .inr (hway.add_step hmax)
    · rcases hb with ⟨rfl, -⟩ | ⟨hp, rfl, -⟩
      · exact hs
      · exact hp
    · rcases hb with ⟨-, rfl⟩ | ⟨hp, -, rfl⟩
      · simp
      · rcases h.best ht with ⟨h0, -⟩ | ⟨-, hmem⟩
        · omega
        · exact mem_append_left _ hmem

theorem Sound.run (h : Sound cfg t) (sums : List ℕ) : Sound cfg (run cfg t sums) := by
  induction sums generalizing t with
  | nil => exact h
  | cons sum sums ih => exact ih (h.epoch hd sum)

end

theorem exists_first {G : Tuner → Prop} {Q : ℕ → Tuner → Prop} (h0 : ∀ t, Q 0 t → G t)
    (hs : ∀ n t sum, 0 < sum → Q (n + 1) t → Q n (epoch cfg t sum)) (hq : Q n t) {sums : List ℕ}
    (hn : n ≤ sums.countP (0 < ·)) : ∃ first, first <+: sums ∧ G (run cfg t first) := by
  induction sums generalizing n t with
  | nil =>
    obtain rfl : n = 0 := by simpa using hn
    exact ⟨[], prefix_rfl, h0 t hq⟩
  | cons sum sums ih =>
    cases n with
    | zero => exact ⟨[], nil_prefix, h0 t hq⟩
    | succ n =>
      rcases Nat.eq_zero_or_pos sum with rfl | hpos
      · obtain ⟨first, hf, hg⟩ := ih hq (by simpa using hn)
        exact ⟨0 :: first, cons_prefix_cons.mpr ⟨rfl, hf⟩, by simpa using hg⟩
      · obtain ⟨first, hf, hg⟩ := ih (hs n t sum hpos hq) (by
          rw [countP_cons_of_pos (by simpa using hpos)] at hn
          omega)
        exact ⟨sum :: first, cons_prefix_cons.mpr ⟨rfl, hf⟩, hg⟩

def Below (cfg : TunerConfig) (n : ℕ) (t : Tuner) : Prop :=
  t.isTraining = true ∧ t.creditBound + n * cfg.creditStep = cfg.maxCredit

theorem Below.epoch_eq (h : Below cfg n t) (hs : 0 < sum) : (epoch cfg t sum).isTraining = true ∧
    (epoch cfg t sum).creditBound =
      if n = 0 then kInfCreditValue else t.creditBound + cfg.creditStep := by
  have hmax := cfg.max_lt
  have hstep := cfg.step_pos
  have hb := h.2
  have hnn : 0 ≤ n * cfg.creditStep := Int.mul_nonneg (by omega) (by omega)
  rcases epoch_cases cfg t hs with ⟨ht, -⟩ | ⟨ht, -⟩ | ⟨-, hi, -⟩ | ⟨-, -, best, b, -, he⟩
  · simp [h.1] at ht
  · simp [h.1] at ht
  · unfold kInfCreditValue at hi
    omega
  · rw [he]
    have hz : n * cfg.creditStep = 0 ↔ n = 0 := by simp [hstep.ne']
    exact ⟨h.1, if_congr (by omega) rfl rfl⟩

theorem Below.epoch_max (h : Below cfg 0 t) (hs : 0 < sum) :
    (epoch cfg t sum).isTraining = true ∧ (epoch cfg t sum).creditBound = kInfCreditValue := by
  simpa using h.epoch_eq hs

theorem Below.epoch (h : Below cfg (n + 1) t) (hs : 0 < sum) : Below cfg n (epoch cfg t sum) := by
  obtain ⟨ht, he⟩ := h.epoch_eq hs
  refine ⟨ht, ?_⟩
  rw [he, if_neg (by omega), ← h.2]
  push_cast
  ring

theorem OnWay.exists_below (h : OnWay cfg t.creditBound) (ht : t.isTraining = true) :
    ∃ n, Below cfg n t := by
  obtain ⟨k, hk⟩ := h.2.2
  have hpos := cfg.step_pos
  have hk0 : 0 ≤ k := by
    have hle := h.2.1
    by_contra hneg
    have := Int.mul_neg_of_pos_of_neg hpos (Int.not_le.mp hneg)
    omega
  refine ⟨k.toNat, ht, ?_⟩
  rw [Int.toNat_of_nonneg hk0]
  rw [mul_comm] at hk
  omega

theorem Below.reaches_max (h : Below cfg n t) : Reaches cfg t cfg.maxCredit := by
  refine ⟨n, fun sums hn => ?_⟩
  refine exists_first (Q := Below cfg)
    (G := fun t => t.isTraining = true ∧ t.creditBound = cfg.maxCredit)
    (fun t h0 => ⟨h0.1, ?_⟩) (fun n t sum hs hq => hq.epoch hs) h hn
  simpa using h0.2

theorem Below.reaches_inf (h : Below cfg n t) : Reaches cfg t kInfCreditValue := by
  -- one sample more than to `max_credit`
  refine ⟨n + 1, fun sums hn => ?_⟩
  refine exists_first (Q := fun n t => n = 0 ∧ t.isTraining = true ∧
      t.creditBound = kInfCreditValue ∨ ∃ m, n = m + 1 ∧ Below cfg m t)
    (G := fun t => t.isTraining = true ∧ t.creditBound = kInfCreditValue)
    (fun t h0 => ?_) (fun n t sum hs hq => ?_) (.inr ⟨n, rfl, h⟩) hn
  · rcases h0 with h0 | ⟨m, hm, -⟩
    · exact h0.2
    · omega
  · rcases hq with ⟨hn, -⟩ | ⟨m, hm, hq⟩
    · omega
    · obtain rfl : n = m := by omega
      cases n with
      | zero => exact .inl ⟨rfl, hq.epoch_max hs⟩
      | succ n => exact .inr ⟨n, rfl, hq.epoch hs⟩

theorem Sound.inRange (h : Sound cfg t) : InRange cfg t := by
  have hway : ∀ b, OnWay cfg b → 1 ≤ b ∧ b < 256 := by
    intro b hb
    have := cfg.max_lt
    have := cfg.initial_pos
    have := hb.1
    have := hb.2.1
    omega
  refine ⟨?_, fun i hi => ?_, fun ht hne => (h.choice ht).resolve_left hne, fun ht hne => ?_⟩
  · have hcases : t.creditBound = kInfCreditValue ∨ OnWay cfg t.creditBound := by
      cases ht : t.isTraining with
      | true => exact h.bound ht
      | false => exact (h.choice ht).imp_right (h.sampled _)
    rcases hcases with hi | hb
    · rw [hi]
      decide
    · have := hway _ hb
      omega
  · have := hway i (h.sampled i hi)
    omega
  · obtain ⟨n, hn⟩ := ((h.bound ht).resolve_left hne).exists_below ht
    exact ⟨hn.reaches_max, hn.reaches_inf⟩

/-! ### When they pass it by -/

theorem dvd_of_not_dvd (hd : ¬ cfg.creditStep ∣ cfg.maxCredit - cfg.initialCredit)
    (h : t.isTraining = true → cfg.creditStep ∣ t.creditBound - cfg.initialCredit)
    (sums : List ℕ) : (run cfg t sums).isTraining = true →
      cfg.creditStep ∣ (run cfg t sums).creditBound - cfg.initialCredit := by
  induction sums generalizing t with
  | nil => exact h
  | cons sum sums ih =>
    refine ih ?_
    rcases Nat.eq_zero_or_pos sum with rfl | hs
    · rwa [epoch_zero]
    rcases epoch_cases cfg t hs with ⟨-, he⟩ | ⟨ht, he⟩ | ⟨-, -, b, -, he⟩ |
        ⟨ht, -, best, b, -, he⟩
    · rw [he]
      simp
    · rwa [he]
    · rw [he]
      simp
    · rw [he]
      intro _
      have hne : t.creditBound ≠ cfg.maxCredit := by
        intro hb
        have hdvd := h ht
        rw [hb] at hdvd
        exact hd hdvd
      rw [if_neg hne, add_sub_right_comm]
      exact Int.dvd_add (h ht) (Int.dvd_refl _)

/-- The tuner stays in range exactly when the steps from `initial_credit` meet `max_credit`. -/
theorem inRange_iff (cfg : TunerConfig) : (∀ sums, InRange cfg (run cfg (start cfg) sums)) ↔
      cfg.creditStep ∣ cfg.maxCredit - cfg.initialCredit := by
  constructor
  · intro h
    by_contra hd
    have hmax := cfg.max_lt
    have hle := cfg.initial_le
    obtain ⟨⟨n, hn⟩, -⟩ := (h []).full rfl (by
      simp only [run_nil, start, kInfCreditValue]
      omega)
    obtain ⟨first, -, ht, hb⟩ := hn (List.replicate n 1) (by simp [countP_replicate])
    have := dvd_of_not_dvd (t := start cfg) hd (fun _ => by
      simp only [start, Int.sub_self, Int.dvd_zero]) first ht
    rw [run_nil] at hb
    rw [hb] at this
    exact hd this
  · intro hd sums
    exact ((sound_fresh hd 0).run hd sums).inRange

def skipping : TunerConfig :=
  ⟨⟨5, 4, 12, 10, fun best sum => best < sum⟩, by decide, by decide, by decide, by decide⟩

theorem not_inRange_skipping :
    (run skipping (start skipping) (List.replicate 51 1)).creditBound = 259 ∧
      259 ∈ (run skipping (start skipping) (List.replicate 52 1)).sampled := by
  decide +kernel

end Tuner

end Fusa.Smart

import Fusa.Lib.Modular

/-! The ring of a completion queue, and `mlx5_resize_cq`, which moves it to a new buffer. -/
namespace Fusa.Driver.CompletionQueue
open Function List Nat

/-- A completion without its owner bit. Nothing here looks at `rest`, the other bytes. -/
structure Cqe where
  opcode : ℕ
  srqnUidx : ℕ
  sopDropQpn : ℕ
  wqeCounter : UInt16
  rest : List UInt8
deriving DecidableEq

structure Entry where
  own : Bool
  cqe : Cqe
deriving DecidableEq

/-- `2 ^ log` is `verbs_cq.cq.cqe + 1`, an `int`. -/
structure Cq where
  log : ℕ
  log_lt : log < 31
  buf : ℕ → Entry
  cons : UInt32

namespace Cq
variable (cq : Cq)

/-- `n & cqe`. -/
def slot (n : ℕ) : ℕ := n % 2 ^ cq.log

/-- `!!(n & (cqe + 1))`. -/
def lap (n : ℕ) : Bool := n.testBit cq.log

/-- `get_sw_cqe`; the opcode 15 is `MLX5_CQE_INVALID`. -/
def getSwCqe (n : ℕ) : Option Cqe :=
  if (cq.buf (cq.slot n)).cqe.opcode ≠ 15 ∧ (cq.buf (cq.slot n)).own = cq.lap n then
    some (cq.buf (cq.slot n)).cqe
  else none

/-- `mlx5_get_next_cqe`. -/
def poll : Option Cqe × Cq :=
  match cq.getSwCqe cq.cons.toNat with
  | none => (none, cq)
  | some c => (some c, { cq with cons := cq.cons + 1 })

def write (n : ℕ) (c : Cqe) : Cq := { cq with buf := update cq.buf (cq.slot n) ⟨cq.lap n, c⟩ }

end Cq

inductive Event
  | poll
  | write (c : Cqe)

/-- What the polls return when the device is at index `prod`. -/
def Cq.play : List Event → Cq → UInt32 → List (Option Cqe)
  | [], _, _ => []
  | .poll :: es, cq, prod => cq.poll.1 :: play es cq.poll.2 prod
  | .write c :: es, cq, prod => play es (cq.write prod.toNat c) (prod + 1)

/-- What they would return from a queue that holds `xs`. -/
def fifo : List Event → List Cqe → List (Option Cqe)
  | [], _ => []
  | .poll :: es, xs => xs.head? :: fifo es xs.tail
  | .write c :: es, xs => fifo es (xs ++ [c])

/-- The device writes valid completions, and only into a free entry. -/
def Fits (size : ℕ) : List Event → ℕ → Prop
  | [], _ => True
  | .poll :: es, n => Fits size es (n - 1)
  | .write c :: es, n => c.opcode ≠ 15 ∧ n < size ∧ Fits size es (n + 1)

/-- Software owns the completions `xs` from index `c` on, and no others. -/
structure Holds (cq : Cq) (c : ℕ) (xs : List Cqe) : Prop where
  cons : cq.cons = .ofNat c
  length_le : xs.length ≤ 2 ^ cq.log
  recognised : ∀ t < 2 ^ cq.log, cq.getSwCqe (c + t) = xs[t]?

section
variable {cq : Cq} {c n t : ℕ} {x y : Cqe} {xs : List Cqe}

theorem slot_mod (n : ℕ) : cq.slot (n % 2 ^ 32) = cq.slot n :=
  mod_mod_of_dvd _ (pow_dvd_pow 2 (by have := cq.log_lt; omega))

theorem lap_mod (n : ℕ) : cq.lap (n % 2 ^ 32) = cq.lap n := by
  have hlt := cq.log_lt
  rw [Cq.lap, testBit_mod_two_pow, decide_eq_true (by omega), Bool.true_and]
  rfl

theorem getSwCqe_mod (n : ℕ) : cq.getSwCqe (n % 2 ^ 32) = cq.getSwCqe n := by
  rw [Cq.getSwCqe, slot_mod, lap_mod, Cq.getSwCqe]

theorem write_mod (n : ℕ) : cq.write (n % 2 ^ 32) x = cq.write n x := by
  rw [Cq.write, slot_mod, lap_mod, Cq.write]

theorem getSwCqe_eq_some : cq.getSwCqe n = some x ↔
    x.opcode ≠ 15 ∧ cq.buf (cq.slot n) = ⟨cq.lap n, x⟩ := by
  unfold Cq.getSwCqe
  rcases cq.buf (cq.slot n) with ⟨own, cqe⟩
  simp only [Option.ite_none_right_eq_some, Option.some.injEq, Entry.mk.injEq]
  constructor
  · rintro ⟨⟨ho, hl⟩, rfl⟩
    exact ⟨ho, hl, rfl⟩
  · rintro ⟨ho, hl, rfl⟩
    exact ⟨⟨ho, hl⟩, rfl⟩

theorem getSwCqe_next_lap (h : (cq.buf (cq.slot n)).own = cq.lap n) :
    cq.getSwCqe (n + 2 ^ cq.log) = none := by
  have hslot : cq.slot (n + 2 ^ cq.log) = cq.slot n := add_mod_right _ _
  have hlap : cq.lap (n + 2 ^ cq.log) = !cq.lap n := by
    unfold Cq.lap
    rw [add_comm, testBit_two_pow_add_eq]
  rw [Cq.getSwCqe, hslot, hlap, if_neg (by simp [h])]

theorem slot_inj {i j : ℕ} (hi : i < 2 ^ cq.log) (hj : j < 2 ^ cq.log)
    (h : cq.slot (c + i) = cq.slot (c + j)) : i = j := by
  have := Cyclic.eq_of_mod_eq (le_add_right c i) (by omega) (le_add_right c j) (by omega) h
  omega

theorem getSwCqe_write (ht : t < 2 ^ cq.log) (hn : n < 2 ^ cq.log) (hx : x.opcode ≠ 15) :
    (cq.write (c + n) x).getSwCqe (c + t) = if t = n then some x else cq.getSwCqe (c + t) := by
  split_ifs with h
  · subst h
    rw [getSwCqe_eq_some]
    exact ⟨hx, update_self ..⟩
  · have hne : cq.slot (c + t) ≠ cq.slot (c + n) := fun he => h (slot_inj ht hn he)
    unfold Cq.getSwCqe
    change (if (update cq.buf _ _ (cq.slot (c + t))).cqe.opcode ≠ 15 ∧
      (update cq.buf _ _ (cq.slot (c + t))).own = cq.lap (c + t) then
        some (update cq.buf _ _ (cq.slot (c + t))).cqe else none) = _
    rw [update_of_ne hne]

section
variable (h : Holds cq c xs)
include h

theorem Holds.entry (hx : xs[t]? = some x) :
    x.opcode ≠ 15 ∧ cq.buf (cq.slot (c + t)) = ⟨cq.lap (c + t), x⟩ := by
  have ht := (List.getElem?_eq_some_iff.mp hx).1
  exact getSwCqe_eq_some.mp ((h.recognised t (ht.trans_le h.length_le)).trans hx)

theorem Holds.poll :
    cq.poll.1 = xs.head? ∧ Holds cq.poll.2 (if xs = [] then c else c + 1) xs.tail := by
  have h0 := h.recognised 0 (Nat.two_pow_pos _)
  have hcons : cq.getSwCqe cq.cons.toNat = xs.head? := by
    rwa [h.cons, UInt32.toNat_ofNat', getSwCqe_mod, List.head?_eq_getElem?]
  unfold Cq.poll
  rw [hcons]
  cases xs with
  | nil => exact ⟨rfl, h⟩
  | cons x xs =>
    refine ⟨rfl, ?_, ?_, fun t ht => ?_⟩
    · change cq.cons + 1 = _
      rw [h.cons, if_neg (by simp), UInt32.ofNat_add]
      rfl
    · exact (le_succ _).trans h.length_le
    · change cq.getSwCqe _ = xs[t]?
      rw [if_neg (by simp), add_assoc, add_comm 1]
      rcases lt_or_ge (t + 1) (2 ^ cq.log) with hlt | hge
      · exact h.recognised _ hlt
      · have hlast : t + 1 = 2 ^ cq.log := by
          change t < 2 ^ cq.log at ht
          omega
        have hown : (cq.buf (cq.slot c)).own = cq.lap c :=
          congrArg Entry.own (h.entry (t := 0) rfl).2
        rw [hlast, getSwCqe_next_lap hown]
        have := h.length_le
        simp at this ⊢
        omega

theorem Holds.write (hn : xs.length < 2 ^ cq.log) (hy : y.opcode ≠ 15) :
    Holds (cq.write (c + xs.length) y) c (xs ++ [y]) := by
  have hlen : (xs ++ [y]).length ≤ 2 ^ cq.log := by simpa using succ_le_of_lt hn
  refine ⟨h.cons, hlen, fun t ht => ?_⟩
  change t < 2 ^ cq.log at ht
  rw [getSwCqe_write ht hn hy, h.recognised t ht]
  split_ifs with he
  · simp [he]
  · rcases lt_or_ge t xs.length with hlt | hge
    · rw [List.getElem?_append_left hlt]
    · rw [List.getElem?_eq_none hge, List.getElem?_eq_none (by simp; omega)]

/-- The poller and the device use the ring as a queue. -/
theorem Holds.play {es : List Event} (hes : Fits (2 ^ cq.log) es xs.length) :
    cq.play es (.ofNat (c + xs.length)) = fifo es xs := by
  induction es generalizing cq c xs with
  | nil => rfl
  | cons e es ih =>
    cases e with
    | poll =>
      obtain ⟨hhead, htail⟩ := h.poll
      have hlog : cq.poll.2.log = cq.log := by
        unfold Cq.poll
        split <;> rfl
      have hsum : (if xs = [] then c else c + 1) + xs.tail.length = c + xs.length := by
        cases xs <;> simp; omega
      have := ih htail (by rw [hlog, length_tail]; exact hes)
      rw [hsum] at this
      rw [Cq.play, fifo, hhead, this]
    | write y =>
      obtain ⟨hy, hlt, hes⟩ := hes
      have := ih (h.write hlt hy) (by rw [length_append]; exact hes)
      rw [length_append, ← add_assoc, UInt32.ofNat_add] at this
      rw [Cq.play, fifo, UInt32.toNat_ofNat', write_mod]
      exact this

end

end

namespace Cq
variable (cq : Cq)

/-- The errors of the copy: `is_hw`, and back at the entry that it began with. -/
def copyFails (i : UInt32) : Prop :=
  (cq.buf (cq.slot i.toNat)).own ≠ cq.lap i.toNat ∨
    i ≠ cq.cons ∧ cq.slot i.toNat = cq.slot cq.cons.toNat
deriving Decidable

/-- The loop of `mlx5_cq_resize_copy_cqes` from `i` on, and whether it met `RESIZE_CQ`. -/
def copyCqes : ℕ → UInt32 → Cq → Cq × Bool
  | 0, _, new => (new, false)
  | fuel + 1, i, new =>
    if cq.copyFails i then (new, false)
    else if (cq.buf (cq.slot i.toNat)).cqe.opcode = 5 then (new, true)
    else copyCqes fuel (i + 1) (new.write (i + 1).toNat (cq.buf (cq.slot i.toNat)).cqe)

/-- `mlx5_cq_resize_copy_cqes` and the switch to the new buffer. -/
def resize (fuel : ℕ) (new : Cq) : Cq :=
  let r := cq.copyCqes fuel cq.cons new
  { r.1 with cons := if r.2 then cq.cons + 1 else cq.cons }

def writes (cq : Cq) (n : ℕ) : List Cqe → Cq
  | [] => cq
  | z :: zs => writes (cq.write n z) (n + 1) zs

end Cq

section
variable {old q : Cq} {c n t : ℕ} {r : Cqe} {xs zs : List Cqe}

theorem log_writes (n : ℕ) (zs : List Cqe) : (q.writes n zs).log = q.log := by
  induction zs generalizing q n with
  | nil => rfl
  | cons z zs ih => exact ih ..

theorem getSwCqe_writes (ht : t < 2 ^ q.log) (hn : n + zs.length ≤ 2 ^ q.log)
    (hz : ∀ z ∈ zs, z.opcode ≠ 15) : (q.writes (c + n) zs).getSwCqe (c + t) =
      if n ≤ t ∧ t < n + zs.length then zs[t - n]? else q.getSwCqe (c + t) := by
  induction zs generalizing q n with
  | nil => rw [if_neg (by simp)]; rfl
  | cons z zs ih =>
    rw [length_cons] at hn ⊢
    have h := ih (q := q.write (c + n) z) (n := n + 1) ht (by change _ ≤ 2 ^ q.log; omega)
      fun y hy => hz y (mem_cons_of_mem z hy)
    rw [Cq.writes, add_assoc, h, getSwCqe_write ht (by omega) (hz z mem_cons_self)]
    rcases lt_trichotomy t n with hlt | rfl | hgt
    · rw [if_neg (by omega), if_neg hlt.ne, if_neg (by omega)]
    · simp
    · have hin : (n + 1 ≤ t ∧ t < n + 1 + zs.length) ↔ n ≤ t ∧ t < n + (zs.length + 1) := by omega
      simp only [hin, if_neg hgt.ne']
      rw [show t - n = t - (n + 1) + 1 by omega, List.getElem?_cons_succ]

theorem copyCqes_eq (h : Holds old c (xs ++ [r])) (hr : r.opcode = 5)
    (hxs : ∀ x ∈ xs, x.opcode ≠ 5) (fuel j : ℕ) (hj : j ≤ xs.length)
    (hfuel : xs.length - j < fuel) :
    old.copyCqes fuel (.ofNat (c + j)) q = (q.writes (c + 1 + j) (xs.drop j), true) := by
  have hle := h.length_le
  rw [length_append, length_singleton] at hle
  induction fuel generalizing j q with
  | zero => omega
  | succ fuel ih =>
    have hi : ∀ y, (xs ++ [r])[j]? = some y → ¬ old.copyFails (.ofNat (c + j)) ∧
        old.buf (old.slot (UInt32.ofNat (c + j)).toNat) = ⟨old.lap (c + j), y⟩ := by
      intro y hy
      have hb := (h.entry hy).2
      unfold Cq.copyFails
      rw [UInt32.toNat_ofNat', slot_mod, lap_mod, hb, h.cons, UInt32.toNat_ofNat', slot_mod]
      refine ⟨?_, rfl⟩
      rintro (hown | ⟨hne, hs⟩)
      · exact hown rfl
      · have := slot_inj (i := j) (j := 0) (by omega) (by omega) hs
        subst this
        exact hne rfl
    rw [Cq.copyCqes]
    rcases hj.lt_or_eq with hj | rfl
    · have hat : (xs ++ [r])[j]? = some xs[j] := by
        rw [List.getElem?_append_left hj, List.getElem?_eq_getElem hj]
      obtain ⟨hok, hb⟩ := hi _ hat
      have hnext : UInt32.ofNat (c + j) + 1 = .ofNat (c + (j + 1)) := by
        rw [← add_assoc, UInt32.ofNat_add (c + j)]
        rfl
      rw [if_neg hok, hb, if_neg (hxs _ (getElem_mem hj)), drop_eq_getElem_cons hj, hnext,
        UInt32.toNat_ofNat', write_mod, ih (j + 1) hj (by omega), Cq.writes,
        show c + (j + 1) = c + 1 + j by omega, show c + 1 + (j + 1) = c + 1 + j + 1 by omega]
    · obtain ⟨hok, hb⟩ := hi r (by simp)
      rw [if_neg hok, hb, if_pos hr, drop_length]
      rfl

/-- Polling goes on in the new buffer: the pending completions, then the device's. -/
theorem resize_play {fuel : ℕ} {es : List Event} (h : Holds old c (xs ++ [r])) (hr : r.opcode = 5)
    (hxs : ∀ x ∈ xs, x.opcode ≠ 5) (hfresh : ∀ i, (q.buf i).cqe.opcode = 15)
    (hzs : ∀ z ∈ zs, z.opcode ≠ 15) (hroom : xs.length + zs.length ≤ 2 ^ q.log)
    (hfuel : 2 ^ old.log ≤ fuel) (hes : Fits (2 ^ q.log) es (xs ++ zs).length) :
    (old.resize fuel (q.writes (c + 1 + xs.length) zs)).play es
        (.ofNat (c + 1 + xs.length + zs.length)) = fifo es (xs ++ zs) := by
  have hle := h.length_le
  rw [length_append, length_singleton] at hle
  have hcopy : old.copyCqes fuel _ (q.writes (c + 1 + xs.length) zs) = _ :=
    copyCqes_eq h hr hxs fuel 0 (zero_le _) (by omega)
  rw [add_zero, ← h.cons, drop_zero] at hcopy
  have hvalid : ∀ x ∈ xs, x.opcode ≠ 15 := fun x hx => by
    obtain ⟨i, hi⟩ := mem_iff_getElem?.mp (mem_append_left [r] hx)
    exact (h.entry hi).1
  have hlog := log_writes (q := q) (c + 1 + xs.length) zs
  have hlog' := (log_writes (c + 1 + 0) xs).trans hlog
  have hholds : Holds (old.resize fuel (q.writes (c + 1 + xs.length) zs)) (c + 1) (xs ++ zs) := by
    rw [Cq.resize, hcopy]
    refine ⟨?_, ?_, fun t ht => ?_⟩
    · rw [h.cons, UInt32.ofNat_add]
      rfl
    · rwa [hlog', length_append]
    · rw [hlog'] at ht
      refine (getSwCqe_writes (by rwa [hlog]) (by rw [hlog]; omega) hvalid).trans ?_
      have hstale : q.getSwCqe (c + 1 + t) = none := by
        rw [Cq.getSwCqe, hfresh, if_neg (by simp)]
      rw [getSwCqe_writes ht hroom hzs, hstale, Nat.zero_add, Nat.sub_zero, List.getElem?_append]
      rcases lt_or_ge t xs.length with hlt | hge
      · rw [if_pos ⟨zero_le t, hlt⟩, if_pos hlt]
      · rw [if_neg fun h => not_lt.mpr hge h.2, if_neg (not_lt.mpr hge), ite_eq_left_iff]
        exact fun hn => (List.getElem?_eq_none (by omega)).symm
  have hplay : Cq.play es _ _ = _ := hholds.play (by rw [Cq.resize, hcopy, hlog']; exact hes)
  rwa [length_append, ← add_assoc] at hplay

end

/-- Three entries of a ring of four, the last of them `RESIZE_CQ`, across the wrap of the index. -/
def beforeResize : Cq :=
  ⟨2, by decide, fun i => ⟨i ≠ 0, ⟨if i = 0 then 5 else if i = 1 then 15 else 0, i, 0, 0, []⟩⟩,
    0xfffffffe⟩

def freshCq : Cq := ⟨3, by decide, fun _ => ⟨false, ⟨15, 0, 0, 0, []⟩⟩, 0⟩

theorem resize_play_beforeResize :
    (beforeResize.resize 4 (freshCq.writes (0xfffffffe + 1 + 2) [⟨0, 9, 0, 0, []⟩])).play
        [.poll, .poll, .poll, .poll] (.ofNat (0xfffffffe + 1 + 2 + 1)) =
      [some ⟨0, 2, 0, 0, []⟩, some ⟨0, 3, 0, 0, []⟩, some ⟨0, 9, 0, 0, []⟩, none] :=
  resize_play (⟨rfl, by decide, by decide⟩ : Holds beforeResize 0xfffffffe
    ([⟨0, 2, 0, 0, []⟩, ⟨0, 3, 0, 0, []⟩] ++ [⟨5, 0, 0, 0, []⟩])) rfl (by decide)
    (fun _ => rfl) (by decide) (by decide) (by decide) trivial

/-- From its creation on, through every wrap of the index, the ring is a queue. -/
theorem new_play {cq : Cq} {es : List Event} (hcons : cq.cons = 0)
    (hnew : ∀ i, (cq.buf i).cqe.opcode = 15) (hes : Fits (2 ^ cq.log) es 0) :
    cq.play es 0 = fifo es [] := by
  have h : Holds cq 0 [] := by
    refine ⟨hcons, zero_le _, fun t _ => ?_⟩
    rw [Cq.getSwCqe, hnew, if_neg (by simp)]
    rfl
  exact h.play hes

theorem new_play_freshCq : freshCq.play [.write ⟨0, 9, 0, 0, []⟩, .poll, .poll] 0 =
    [some ⟨0, 9, 0, 0, []⟩, none] :=
  new_play rfl (fun _ => rfl) ⟨by decide, by decide, trivial⟩

end Fusa.Driver.CompletionQueue

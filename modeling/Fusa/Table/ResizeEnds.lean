import Fusa.Table.ResizeRun
import Fusa.Table.SplitRest
import Fusa.Table.SplitSlots

/-! A `resize` with nothing else running: what it leaves slot by slot, and that it returns. -/
namespace Fusa.Table
open Function List Nat

variable {x : Split} {hash : Bytes → Hashes} {alloc : ℕ → ℕ} {m₀ m m' : Memory}
  {r r' : Resizer} {i j n : ℕ} {l : List (ℕ × ℕ)}

def Split.ExactAt (x : Split) (hash : Bytes → Hashes) (m₀ m : Memory) (r : Resizer) : Prop :=
  Exact x hash m₀ m r.pc.progress r.pc.written r.oldSlot r.newSlot

theorem Split.ExactAt.at_copy (h : x.ExactAt hash m₀ m r) (hpc : r.pc = .copy i j n l) :
    Exact x hash m₀ m (.copy i j n l) true r.oldSlot r.newSlot := by
  unfold Split.ExactAt at h
  rwa [hpc] at h

section
variable (hc : x.Control alloc m.dir r) (h : x.ExactAt hash m₀ m r)
  (hn : resizeStep hash alloc m r = some (m', r'))
include hc h hn

omit hn in
theorem Split.ExactAt.skips_iff (hpc : r.pc = .copy i j n l) (hj : j < kAssociatedWays) :
    Skips hash m.block r i j ↔ ¬ x.movesSlot hash m₀ i j := by
  have hd := (hc.planned (hpc ▸ rfl)).depth
  have hexact := h.at_copy hpc
  rw [Skips, hd, hc.newSuffix_eq hd, Split.movesSlot_iff, hexact.block,
    hexact.snapshot trivial i hexact.pairs.1 j hj (by simp [Progress.cleared])]
  simp [or_iff_not_imp_left]

omit hn in
theorem Split.ExactAt.step_move (hh : Headers x m.header r) (hap : Apart x.oldTable x.newTable)
    (hm : r.pc.moving) (hs : MoveStep hash m r m' r') : x.ExactAt hash m₀ m' r' := by
  have hlate := ResizePc.early_of_moving hm
  have hptr := hc.newEntry_pointer hlate
  have hexact := h
  unfold Split.ExactAt at hexact
  cases hs with
  | enter hpc hi =>
    rw [hpc] at hexact
    have hs := Exact.enter hexact hi
    exact { hs with }
  | pass hpc hi hs => exact absurd hs (hh.not_pass hc hpc hi).2
  | leave hpc hi =>
    rw [hpc] at hexact
    obtain rfl := le_antisymm hexact.pairs (not_lt.mp hi)
    exact hexact
  | skip hpc hj hs =>
    have hexact := h.at_copy hpc
    exact hexact.skip hj ((h.skips_iff hc hpc hj).mp hs)
  | take hpc hj hs _ _ ha =>
    have hexact := h.at_copy hpc
    rw [hptr] at ha ⊢
    exact hexact.take hap hj (not_not.mp ((h.skips_iff hc hpc hj).not.mp hs)) ha
  | taken hpc hj _ hroom ha =>
    have hexact := h.at_copy hpc
    rw [hptr] at ha ⊢
    refine hexact.probe (not_le.mp fun hle => ha ?_) _
    rw [hexact.copies rfl _ _ _ ⟨hexact.pairs.1, hroom, rfl⟩]
    exact getD_eq_default _ _ (by rw [hexact.length_copies]; exact hle)
  | @used i j n l hpc hj _ _ hb =>
    have hexact := h.at_copy hpc
    have hp := hexact.probe (not_le.mp fun hle => hb (hexact.buffer trivial i hexact.pairs.1 n
      (by rw [hexact.length_copies]; exact hle))) (r.newSlot i n)
    rwa [update_eq_self, update_eq_self] at hp
  | noRoom hpc hj _ hfull =>
    have hexact := h.at_copy hpc
    exact absurd (hexact.room hj) hfull
  | copied hpc hj =>
    have hexact := h.at_copy hpc
    obtain rfl := le_antisymm hexact.pairs.2.1 (not_lt.mp hj)
    exact hexact.copyDone
  | cleared hpc =>
    rw [hpc] at hexact
    exact Exact.clearDone hexact
  | @clear i j n l hpc =>
    rw [hpc] at hexact
    obtain ⟨-, hmove, -, hold, hm⟩ := Exact.next_clear hexact
    have hne := (Split.movesSlot_iff.mp hmove).1
    rw [hc.oldEntry_pointer hlate, casSlot_of_eq (hm.trans hold.symm), hm, if_neg hne]
    have hsame : r.setOldSlot i j (x.slot₀ m₀ i j) = r := by
      rw [Resizer.setOldSlot, ← hold, update_eq_self, update_eq_self]
    rw [hsame]
    exact Exact.clear hap hexact
  | undo hpc =>
    rw [hpc] at hexact
    exact hexact.pairs.elim

theorem Split.ExactAt.step (hh : Headers x m.header r) (hap : Apart x.oldTable x.newTable) :
    x.ExactAt hash m₀ m' r' := by
  cases resizeStep_kind hn with
  | dir hne hon =>
    obtain ⟨⟨d, rfl⟩, htab, hprog⟩ := hon
    unfold Split.ExactAt at h ⊢
    rw [(hprog hne).1, (hprog hne).2, htab.oldSlot, htab.newSlot]
    exact { h with }
  | lockNew hpc hd =>
    obtain ⟨hpc', -⟩ := hc.step_lockNew hn hpc
    obtain ⟨d, rfl⟩ := hd
    unfold Split.ExactAt at h ⊢
    rw [hpc] at h
    rw [hpc']
    exact ⟨h.block, h.others, h.kept, h.gone, (fun hw => by cases hw), (fun ha => ha.elim),
      (fun ha => ha.elim), trivial⟩
  | readOld hpc =>
    have hptr := hc.oldEntry_pointer (hpc ▸ rfl)
    have hat := hc.at_pc
    unfold Split.ExactAt at h
    rw [hpc] at h hat
    simp only [resizeStep, hpc, hptr] at hn
    cases hn
    rw [hat.1]
    exact Exact.read h
  | writeNew hpc =>
    have hptr := hc.newEntry_pointer (hpc ▸ rfl)
    unfold Split.ExactAt at h
    rw [hpc] at h
    simp only [resizeStep, hpc, hptr] at hn
    cases hn
    exact Exact.writeTable hap h
  | move hm hs => exact h.step_move hc hh hap hm hs
  | unlockNew hpc hon =>
    obtain ⟨hpc', -⟩ := hc.step_unlockNew hn hpc
    obtain ⟨⟨d, rfl⟩, htab, -⟩ := hon
    unfold Split.ExactAt at h ⊢
    rw [hpc] at h
    rw [hpc', htab.oldSlot, htab.newSlot]
    have hs := Exact.finish h
    exact { hs with }

end

/-! ### The run -/

/-- What holds at every step of a `resize` that runs alone from the memory `m₀`. -/
structure Alone (x : Split) (hash : Bytes → Hashes) (alloc : ℕ → ℕ) (m₀ m : Memory)
    (r : Resizer) : Prop where
  control : x.Control alloc m.dir r
  rest : x.RestAt m.dir r r.pc
  headers : Headers x m.header r
  otherHeaders : ∀ a, ¬ InTable x.newTable a → (∀ b < kTotalBuckets, a ≠ bucketAddr x.oldTable b) →
    m.header a = m₀.header a
  slots : x.ExactAt hash m₀ m r

section
variable (h : x.ExactAt hash m₀ m r)
include h

/-- `move_bucket` never finds a slot empty that it is to clear. -/
theorem Split.ExactAt.pc_ne_undo (i n : ℕ) (l : List (ℕ × ℕ)) : r.pc ≠ .undo i n l := by
  intro hpc
  unfold Split.ExactAt at h
  rw [hpc] at h
  exact h.pairs.elim

theorem Split.ExactAt.room (hpc : r.pc = .copy i j n l) (hj : j < kAssociatedWays) :
    n < kAssociatedWays :=
  (h.at_copy hpc).room hj

theorem Split.ExactAt.length_le (hpc : r.pc = .copy i j n l) :
    n ≤ l.length ∧ l.length ≤ kAssociatedWays := by
  obtain ⟨-, hj, hl, hn⟩ := (h.at_copy hpc).pairs
  refine ⟨hn, ?_⟩
  rw [hl, length_zipIdx]
  exact (x.length_movers_le hash m₀ i j).trans hj

theorem Split.ExactAt.bucket_le (hpc : r.pc = .bucket i) : i ≤ kTotalBuckets := by
  unfold Split.ExactAt at h
  rw [hpc] at h
  exact h.pairs

end

section
variable (h : Alone x hash alloc m₀ m r) (hn : resizeStep hash alloc m r = some (m', r'))
include h hn

theorem Alone.otherHeaders_step {a : ℕ} (hout : ¬ InTable x.newTable a)
    (hne : ∀ b < kTotalBuckets, a ≠ bucketAddr x.oldTable b) : m'.header a = m.header a := by
  cases resizeStep_kind hn with
  | dir _ hon | unlockNew _ hon =>
    obtain ⟨d, rfl⟩ := hon.memory
    rfl
  | lockNew _ hd =>
    obtain ⟨d, rfl⟩ := hd
    rfl
  | readOld _ hm => rw [hm]
  | writeNew hpc =>
    simp only [resizeStep, hpc, h.control.newEntry_pointer (hpc ▸ rfl)] at hn
    cases hn
    exact if_neg hout
  | move hm hs =>
    cases hs with
    | enter hpc hi =>
      rw [h.control.oldEntry_pointer (ResizePc.early_of_moving hm)]
      exact Cas.cas_apply_of_ne (hne _ hi)
    | _ => rfl

theorem Alone.step (hap : Apart x.oldTable x.newTable)
    (hidle : ∀ i < 2 ^ x.dir.globalDepth, (x.dir.subtables i).lock = 0) :
    Alone x hash alloc m₀ m' r' := by
  have hslots := h.slots.step h.control hn h.headers hap
  refine ⟨h.control.step hn fun _ _ _ _ => h.slots.room, h.control.rest_step h.rest hn hidle,
    h.headers.step h.control hn hap (fun _ => h.slots.bucket_le) h.slots.pc_ne_undo
      hslots.pc_ne_undo, fun a hout hne => ?_, hslots⟩
  rw [h.otherHeaders_step hn hout hne, h.otherHeaders a hout hne]

end

def bucketTurns : ℕ := 200 * kTotalBuckets

def Resizer.rank (r : Resizer) : ℕ :=
  let fix := 2 ^ kMaxGlobalDepth
  let move := bucketTurns + 4
  let plan := move + 2 * fix + 9
  match r.pc with
  | .start => plan + 10 * kMaxGlobalDepth + 10
  | .size => plan + 10 * (kMaxGlobalDepth - r.globalDepth) + 5
  | .growCas g => plan + 10 * (kMaxGlobalDepth - g) + 4
  | .growRead g => plan + 10 * (kMaxGlobalDepth - g) + 3
  | .growWrite g => plan + 10 * (kMaxGlobalDepth - g) + 2
  | .growPublish => plan + 10 * (kMaxGlobalDepth - r.dirCache.globalDepth) + 6
  | .lockOld => plan
  | .lockNew => move + 2 * fix + 8
  | .readOld => move + 2 * fix + 7
  | .writeNew => move + 2 * fix + 6
  | .writeOldEntry => move + 2 * fix + 5
  | .writeNewEntry => move + 2 * fix + 4
  | .fixOld s => move + fix + 2 + (fix - s)
  | .fixNew s => move + 1 + (fix - s)
  | .bucket i => 200 * (kTotalBuckets - i) + 3
  | .copy i j n _ => 200 * (kTotalBuckets - (i + 1)) + 10 * (kAssociatedWays - j) + (112 - n)
  | .clear i l => 200 * (kTotalBuckets - (i + 1)) + 10 + l.length
  | .undo .. => 0
  | .unlockOld => 2
  | .unlockNew => 1
  | .returned => 0

variable {s : ℕ}

/-- `resize` goes on until it returns, unless the directory would have to grow too deep. -/
theorem Alone.exists_step (h : Alone x hash alloc m₀ m r) (hd : x.depth < kMaxGlobalDepth)
    (hpc : r.pc ≠ .returned) : ∃ p, resizeStep hash alloc m r = some p := by
  cases hp : r.pc with
  | returned => exact absurd hp hpc
  | growCas g =>
    have hrest := h.rest
    rw [hp] at hrest
    simp only [resizeStep, hp]
    rw [if_pos (show g + 1 ≤ kMaxGlobalDepth from hrest.1.trans_lt hd)]
    exact ⟨_, rfl⟩
  | growRead | fixOld | fixNew =>
    simp only [resizeStep, hp]
    split <;> exact ⟨_, rfl⟩
  | bucket | copy | clear | undo => exact exists_step_of_moving (hp ▸ rfl)
  | _ =>
    simp only [resizeStep, hp]
    exact ⟨_, rfl⟩

section
variable (h : Alone x hash alloc m₀ m r) (hn : resizeStep hash alloc m r = some (m', r'))
include h hn

theorem Alone.rank_sizing (hpc : r.pc.sizing) : r'.rank < r.rank := by
  have hat := h.control.at_pc
  have hrest := h.rest
  cases hp : r.pc with
  | start =>
    rw [hp] at hat hrest
    simp only [resizeStep, hp, hat.2.2.unlocked] at hn
    cases hn
    simp only [Resizer.rank, hp, Resizer.plan, Bool.false_eq_true, if_false]
    omega
  | size =>
    simp only [resizeStep, hp] at hn
    cases hn
    simp only [Resizer.rank, hp]
    split <;> rename_i heq <;> split at heq <;> cases heq <;> omega
  | growCas g =>
    simp only [resizeStep, hp] at hn
    split at hn <;> cases hn
    simp only [Resizer.rank, hp]
    omega
  | growRead g =>
    rw [hp] at hat
    simp only [resizeStep, hp, hat.1, if_true] at hn
    cases hn
    simp only [Resizer.rank, hp]
    omega
  | growWrite g =>
    rw [hp] at hat hrest
    have hlt := hrest.2.1
    simp only [resizeStep, hp] at hn
    cases hn
    simp only [Resizer.rank, hp, hat.2.globalDepth]
    omega
  | growPublish =>
    simp only [resizeStep, hp] at hn
    cases hn
    simp only [Resizer.rank, hp]
    omega
  | _ => simp [hp, ResizePc.sizing] at hpc

theorem Alone.rank_fix (hpc : r.pc = .fixOld s ∨ r.pc = .fixNew s) : r'.rank < r.rank := by
  have hrest := h.rest
  have hlt : s < 2 ^ r.globalDepth → s < 2 ^ kMaxGlobalDepth := by
    intro hs
    have hmax : r.globalDepth ≤ kMaxGlobalDepth := by
      rcases hpc with hpc | hpc <;> rw [hpc] at hrest <;> exact hrest.le_max
    exact hs.trans_le (Nat.pow_le_pow_right (by decide) hmax)
  have hpos := Nat.two_pow_pos (r.fixDepth + 1)
  rcases hpc with hpc | hpc <;> simp only [resizeStep, hpc] at hn <;> split at hn <;>
    cases hn <;> simp only [Resizer.rank, hpc]
  · rename_i hs
    have := hlt hs
    omega
  · have := Nat.two_pow_pos kMaxGlobalDepth
    omega
  · rename_i hs
    have := hlt hs
    omega
  · simp only [bucketTurns]
    omega

theorem Alone.rank_move (hun : ∀ i n l, r'.pc ≠ .undo i n l) (hpc : r.pc.moving) :
    r'.rank < r.rank := by
  cases resizeStep_moving hpc hn with
  | enter hp hi | pass hp hi =>
    simp only [Resizer.rank, hp, kAssociatedWays]
    omega
  | leave hp =>
    simp only [Resizer.rank, hp]
    omega
  | skip hp hj | take hp hj | taken hp hj | used hp hj =>
    have hroom := h.slots.room hp hj
    simp only [Resizer.rank, hp]
    simp only [kAssociatedWays] at hj hroom ⊢
    omega
  | noRoom hp hj _ hfull => exact absurd (h.slots.room hp hj) hfull
  | copied hp =>
    obtain ⟨hle, hlen⟩ := h.slots.length_le hp
    simp only [Resizer.rank, hp]
    simp only [kAssociatedWays] at hlen ⊢
    omega
  | cleared hp =>
    simp only [Resizer.rank, hp, length_nil]
    omega
  | clear hp =>
    split at hun
    · exact absurd rfl (hun _ _ _)
    · rename_i hne
      simp only [Resizer.rank, hp, if_neg hne, length_cons]
      omega
  | undo hp => exact absurd hp (h.slots.pc_ne_undo _ _ _)

/-- Every operation of `resize` brings it closer to its return. -/
theorem Alone.rank_step (hun : ∀ i n l, r'.pc ≠ .undo i n l) : r'.rank < r.rank := by
  cases hp : r.pc with
  | start | size | growCas | growRead | growWrite | growPublish =>
    exact h.rank_sizing hn (hp ▸ rfl)
  | lockOld =>
    have hpc := (h.control.step_lockOld hn hp).1
    simp only [Resizer.rank, hp, hpc]
    omega
  | lockNew =>
    have hpc := (h.control.step_lockNew hn hp).1
    simp only [Resizer.rank, hp, hpc]
    omega
  | readOld | writeNew | writeOldEntry | writeNewEntry | unlockOld =>
    simp only [resizeStep, hp] at hn
    cases hn
    simp only [Resizer.rank, hp]
    have := Nat.two_pow_pos r.fixDepth
    omega
  | fixOld s => exact h.rank_fix hn (.inl hp)
  | fixNew s => exact h.rank_fix hn (.inr hp)
  | bucket | copy | clear | undo => exact h.rank_move hn hun (hp ▸ rfl)
  | unlockNew =>
    have hpc := (h.control.step_unlockNew hn hp).1
    simp only [Resizer.rank, hp, hpc]
    omega
  | returned => simp [resizeStep, hp] at hn

end

theorem Alone.exists_returned (h : Alone x hash alloc m₀ m r) (hap : Apart x.oldTable x.newTable)
    (hidle : ∀ i < 2 ^ x.dir.globalDepth, (x.dir.subtables i).lock = 0)
    (hd : x.depth < kMaxGlobalDepth) :
    ∃ m' r', Runs hash alloc (m, r) (m', r') ∧ r'.pc = .returned ∧ Alone x hash alloc m₀ m' r' := by
  have hends : ∃ t, Runs hash alloc (m, r) t ∧ Alone x hash alloc m₀ t.1 t.2 ∧
      t.2.pc = .returned := by
    refine Machine.exists_reaches (fun s => s.2.rank) (fun s hs hnot => ?_) h
    obtain ⟨t, ht⟩ := hs.exists_step hd hnot
    have hstep := hs.step ht hap hidle
    exact ⟨t, ht, hstep, hs.rank_step ht hstep.slots.pc_ne_undo⟩
  obtain ⟨⟨m', r'⟩, hruns, hm, hr⟩ := hends
  exact ⟨m', r', hruns, hr, hm⟩

theorem Alone.runs {s t : Memory × Resizer} (h : Alone x hash alloc m₀ s.1 s.2)
    (hr : Runs hash alloc s t) (hap : Apart x.oldTable x.newTable)
    (hidle : ∀ i < 2 ^ x.dir.globalDepth, (x.dir.subtables i).lock = 0) :
    Alone x hash alloc m₀ t.1 t.2 := by
  induction hr with
  | refl => exact h
  | tail _ hstep ih => exact ih.step hstep hap hidle

end Fusa.Table

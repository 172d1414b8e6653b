import Fusa.Lib.Transition
import Fusa.Table.Resize

/-! How a `resize` with nothing else running goes through the buckets, and returns. -/
namespace Fusa.Table
open Function List

def Runs (hash : Bytes → Hashes) (alloc : ℕ → ℕ) : Memory × Resizer → Memory × Resizer → Prop :=
  Relation.ReflTransGen fun s t => resizeStep hash alloc s.1 s.2 = some t

variable {hash : Bytes → Hashes} {alloc : ℕ → ℕ} {m m' : Memory} {r r' : Resizer} {i : ℕ}

theorem exists_step_of_moving (hpc : r.pc.moving) : ∃ p, resizeStep hash alloc m r = some p := by
  cases hp : r.pc with
  | bucket | copy =>
    simp only [resizeStep, hp]
    split_ifs <;> exact ⟨_, rfl⟩
  | clear i l => cases l <;> exact ⟨_, by simp only [resizeStep, hp]; rfl⟩
  | undo => exact ⟨_, by simp only [resizeStep, hp]; rfl⟩
  | _ => simp [hp, ResizePc.moving] at hpc

def ResizePc.left : ResizePc → ℕ
  | .bucket i => 400 * (kTotalBuckets - i) + 1
  | .copy i j n l => 400 * (kTotalBuckets - (i + 1)) + 40 * (kAssociatedWays - j) +
      (kAssociatedWays - n) + 2 * l.length + 4
  | .clear i l => 400 * (kTotalBuckets - (i + 1)) + 2 * l.length + 2
  | .undo i _ l => 400 * (kTotalBuckets - (i + 1)) + 2 * l.length + 3
  | _ => 0

theorem MoveStep.left_lt (h : MoveStep hash m r m' r') : r'.pc.left < r.pc.left := by
  cases h with
  | enter hpc hi | pass hpc hi | skip hpc hi =>
    simp only [hpc, ResizePc.left, kAssociatedWays, length_nil] at hi ⊢
    omega
  | take hpc hj _ hn | taken hpc hj _ hn | used hpc hj _ hn =>
    simp only [hpc, ResizePc.left, kAssociatedWays, length_append, length_singleton]
      at hj hn ⊢
    omega
  | clear hpc =>
    split
    all_goals
      simp only [hpc, ResizePc.left, length_cons]
      omega
  | leave hpc | noRoom hpc | copied hpc | cleared hpc | undo hpc =>
    simp only [hpc, ResizePc.left, length_nil]
    omega

def Resizer.unlocked (r : Resizer) (d : Directory) : Directory :=
  (d.setEntry r.oldSuffix { r.oldEntry with lock := 0 }).setEntry r.newSuffix
    { r.newEntry with lock := 0 }

theorem Resizer.unlocked_newSuffix (r : Resizer) (d : Directory) :
    (r.unlocked d).subtables r.newSuffix = { r.newEntry with lock := 0 } :=
  update_self ..

/-- Where `move_bucket` is before it comes to slot 0 of bucket `i`, and afterwards. -/
def Turn (i : ℕ) (r : Resizer) : Bool → ResizePc → Prop
  | false, .bucket b => b ≤ i ∧ (i < kTotalBuckets → (r.oldHeader i).localDepth = r.depth)
  | false, .copy b j n l => l = [] ∧ b < kTotalBuckets ∧
      (b < i ∧ (i < kTotalBuckets → (r.oldHeader i).localDepth = r.depth) ∨
        b = i ∧ j = 0 ∧ n = 0)
  | false, .clear b l => l = [] ∧ b < i ∧
      (i < kTotalBuckets → (r.oldHeader i).localDepth = r.depth)
  | true, .bucket b => i < b
  | true, .copy b j _ l => l = [] ∧ i < b ∧ b < kTotalBuckets ∨
      l = [(0, 0)] ∧ b = i ∧ 0 < j ∧ r.newSlot i 0 = .null
  | true, .clear b l => l = [] ∧ i ≤ b ∨ l = [(0, 0)] ∧ b = i ∧ r.newSlot i 0 = .null
  | true, .undo b n l => l = [] ∧ b = i ∧ n = 0 ∧ r.newSlot i 0 = .null
  | p, .unlockOld => p = decide (i < kTotalBuckets)
  | _, _ => False

/-- The old table's copy has one word that moves, in slot 0 of bucket `i`, or none if there is no
such bucket. -/
structure Lone (m₀ : Memory) (r₀ : Resizer) (i : ℕ) (m : Memory) (r : Resizer) : Prop where
  block : m.block = m₀.block
  frame : r.newEntry = r₀.newEntry ∧ r.oldEntry = r₀.oldEntry ∧ r.newSuffix = r₀.newSuffix ∧
    r.depth = r₀.depth ∧ r.exit = r₀.exit ∧ r.resizeSuffix = none ∧
    r.unlocked m.dir = r₀.unlocked m₀.dir
  others : ∀ b < kTotalBuckets, ∀ j < kAssociatedWays, (b, j) ≠ (i, 0) → r.oldSlot b j = .null
  at_pc : ∃ passed, Turn i r passed r.pc ∧
    if passed then i < kTotalBuckets ∧
      m.slot (slotAddr r.newEntry.pointer i 0) = r₀.oldSlot i 0
    else m.slot = m₀.slot ∧ r.oldSlot i 0 = r₀.oldSlot i 0 ∧ r.newSlot i 0 = r₀.newSlot i 0

/-- The word finds room in the new table. -/
structure HasRoom (hash : Bytes → Hashes) (m : Memory) (r : Resizer) (i : ℕ) : Prop where
  header : (r.oldHeader i).localDepth = r.depth
  moves : ¬ Skips hash m.block r i 0
  buffer : r.newSlot i 0 = .null
  room : m.slot (slotAddr r.newEntry.pointer i 0) = .null
  apart : slotAddr r.newEntry.pointer i 0 ≠ slotAddr r.oldEntry.pointer i 0

theorem Lone.step {m₀ : Memory} {r₀ : Resizer} (hi : i < kTotalBuckets → HasRoom hash m₀ r₀ i)
    (h : Lone m₀ r₀ i m r) (hs : MoveStep hash m r m' r') : Lone m₀ r₀ i m' r' := by
  obtain ⟨hm, hr, hoth, passed, ht, hp⟩ := h
  obtain ⟨hnew, hold, hsuf, hdep, -, hov, -⟩ := id hr
  have hskip : r.oldSlot i 0 = r₀.oldSlot i 0 →
      (Skips hash m.block r i 0 ↔ Skips hash m₀.block r₀ i 0) := by
    intro heq
    simp only [Skips, heq, hm, hdep, hsuf]
  have hw : i < kTotalBuckets → r₀.oldSlot i 0 ≠ .null := fun hlt hw => (hi hlt).moves (.inl hw)
  have hat : ∀ {b j n l}, r.pc = .copy b j n l → j < kAssociatedWays →
      ¬ Skips hash m.block r b j →
      passed = false ∧ b = i ∧ j = 0 ∧ n = 0 ∧ l = [] ∧ i < kTotalBuckets := by
    intro b j n l hpc hj hsk
    rw [hpc] at ht
    have hbj : b < kTotalBuckets → (b, j) = (i, 0) := fun hb =>
      not_not.mp fun hne => hsk (.inl (hoth b hb j hj hne))
    cases passed <;> simp only [Turn] at ht hp <;> grind
  cases hs with
  | enter hpc hlt hd | pass hpc hlt hd | leave hpc hlt | cleared hpc =>
    rw [hpc] at ht
    refine ⟨hm, hr, hoth, passed, ?_, hp⟩
    cases passed <;> simp only [Turn] at ht hp ⊢ <;> grind
  | copied hpc hlt =>
    rw [hpc] at ht
    refine ⟨hm, hr, hoth, passed, ?_, hp⟩
    simp only [kAssociatedWays] at hlt
    cases passed <;> simp only [Turn] at ht hp ⊢ <;> grind
  | skip hpc hlt hsk =>
    rw [hpc] at ht
    refine ⟨hm, hr, hoth, passed, ?_, hp⟩
    cases passed <;> simp only [Turn] at ht hp ⊢ <;> grind [HasRoom]
  | take hpc hlt hsk =>
    obtain ⟨rfl, rfl, rfl, rfl, rfl, hk⟩ := hat hpc hlt hsk
    refine ⟨hm, hr, hoth, true, .inr ⟨rfl, rfl, Nat.one_pos, ?_⟩, hk, ?_⟩
    · simp [Resizer.setNewSlot]
    · exact (update_self ..).trans hp.2.1
  | taken hpc hlt hsk _ ha =>
    obtain ⟨rfl, rfl, rfl, rfl, rfl, hk⟩ := hat hpc hlt hsk
    rw [hp.1, hnew] at ha
    exact absurd (hi hk).room ha
  | used hpc hlt hsk _ hb =>
    obtain ⟨rfl, rfl, rfl, rfl, rfl, hk⟩ := hat hpc hlt hsk
    exact absurd (hp.2.2.trans (hi hk).buffer) hb
  | noRoom hpc hlt hsk hn =>
    obtain ⟨rfl, rfl, rfl, rfl, rfl, hk⟩ := hat hpc hlt hsk
    exact absurd hlt hn
  | clear hpc =>
    rw [hpc] at ht
    cases passed with
    | false => simp [Turn] at ht
    | true =>
      obtain ⟨hnil, -⟩ | ⟨hl, rfl, hbuf⟩ := ht
      · cases hnil
      · cases hl
        have hap := (hi hp.1).apart
        refine ⟨hm, hr, fun b hb j hj hne => ?_, true, ?_, hp.1, ?_⟩
        · rw [← hoth b hb j hj hne]
          simp only [Resizer.setOldSlot, update_apply]
          grind
        · split
          · exact ⟨rfl, rfl, rfl, hbuf⟩
          · exact .inl ⟨rfl, le_refl _⟩
        · rw [← hnew, ← hold] at hap
          exact (Cas.cas_apply_of_ne hap).trans hp.2
  | undo hpc =>
    rw [hpc] at ht
    cases passed with
    | false => exact ht.elim
    | true =>
      obtain ⟨rfl, rfl, rfl, hbuf⟩ := ht
      refine ⟨hm, hr, hoth, true, .inl ⟨rfl, le_refl _⟩, hp.1, ?_⟩
      rw [casSlot_of_ne (by rw [hp.2, hbuf]; exact hw hp.1)]
      exact hp.2

/-! ### The rest of a resize -/

/-- `resize` is about to split the buckets, with its two entries unlocked at the end. -/
structure Ready (r : Resizer) : Prop where
  pc : r.pc = .bucket 0
  finish : r.exit = .finish
  overflow : r.resizeSuffix = none

theorem runs_unlock (hash : Bytes → Hashes) (alloc : ℕ → ℕ) (m : Memory)
    (hpc : r.pc = .unlockOld) (hexit : r.exit = .finish) (hover : r.resizeSuffix = none) :
    ∃ r', r'.pc = .returned ∧ Runs hash alloc (m, r) ({ m with dir := r.unlocked m.dir }, r') := by
  let e : SubTableEntry := { r.oldEntry with lock := 0 }
  let r₁ : Resizer := { r.setCache r.oldSuffix e with pc := .unlockNew }
  have hold : resizeStep hash alloc m r = some (m.setEntry r.oldSuffix e, r₁) := by
    simp only [resizeStep, hpc]
    rfl
  have hentry : r₁.dirCache.subtables r.newSuffix = r.newEntry := by
    refine update_of_ne ?_ _ _
    have := Nat.two_pow_pos r.depth
    rw [Resizer.newSuffix]
    omega
  have hnew : ∃ r', r'.pc = .returned ∧ resizeStep hash alloc (m.setEntry r.oldSuffix e) r₁ =
      some ({ m with dir := r.unlocked m.dir }, r') := by
    have hexit₁ : r₁.exit = .finish := hexit
    have hover₁ : r₁.resizeSuffix = none := hover
    simp only [Resizer.unlocked, ← hentry, resizeStep, Resizer.unlock, hexit₁, hover₁]
    exact ⟨_, rfl, rfl⟩
  obtain ⟨r', hret, hstep⟩ := hnew
  exact ⟨r', hret, .head hold (.head hstep .refl)⟩

theorem Turn.moving {p : Bool} (h : Turn i r p r.pc) (hne : r.pc ≠ .unlockOld) : r.pc.moving := by
  cases hpc : r.pc with
  | bucket | copy | clear | undo => rfl
  | unlockOld => exact absurd hpc hne
  | _ =>
    rw [hpc] at h
    cases p <;> exact h.elim

theorem Ready.runs (h : Ready r) (hi : i < kTotalBuckets → HasRoom hash m r i)
    (hs : ∀ b < kTotalBuckets, ∀ j < kAssociatedWays, (b, j) ≠ (i, 0) → r.oldSlot b j = .null) :
    ∃ m' r', Runs hash alloc (m, r) (m', r') ∧ r'.pc = .returned ∧ m'.block = m.block ∧
      m'.dir = r.unlocked m.dir ∧
      if i < kTotalBuckets then m'.slot (slotAddr r.newEntry.pointer i 0) = r.oldSlot i 0
      else m'.slot = m.slot := by
  have hstart : Lone m r i m r := by
    refine ⟨rfl, ⟨rfl, rfl, rfl, rfl, rfl, h.overflow, rfl⟩, hs, false, ?_, rfl, rfl, rfl⟩
    rw [h.pc]
    exact ⟨Nat.zero_le i, fun hlt => (hi hlt).header⟩
  have hends : ∃ t, Runs hash alloc (m, r) t ∧ Lone m r i t.1 t.2 ∧ t.2.pc = .unlockOld := by
    refine Machine.exists_reaches (fun s => s.2.pc.left) (fun s hl hne => ?_) hstart
    obtain ⟨p, hp, -⟩ := hl.at_pc
    obtain ⟨t, ht⟩ := exists_step_of_moving (hp.moving hne)
    have hmove := resizeStep_moving (hp.moving hne) ht
    exact ⟨t, ht, hl.step hi hmove, hmove.left_lt⟩
  obtain ⟨⟨m₁, r₁⟩, hruns, ⟨hb, hr, -, p, hp, hslot⟩, hpc⟩ := hends
  obtain ⟨hnew, -, -, -, hexit, hover, hdir⟩ := hr
  obtain ⟨r', hret, hlast⟩ := runs_unlock hash alloc m₁ hpc (hexit.trans h.finish) hover
  refine ⟨_, r', hruns.trans hlast, hret, hb, hdir, ?_⟩
  rw [hpc] at hp
  cases p <;> simp_all [Turn]

end Fusa.Table

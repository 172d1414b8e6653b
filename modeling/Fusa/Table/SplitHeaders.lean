import Fusa.Table.SplitControl

/-! The bucket headers of a subtable while it is split, and the steps of `resize` that leave the
tables alone. -/
namespace Fusa.Table
open Function

/-- `move_bucket` has marked bucket `b` with the new depth. -/
def Progress.marked : Progress → ℕ → Bool
  | .before, _ | .lost, _ => false
  | .bucket i, b => b < i
  | .copy i _ _ _, b | .clear i _, b => b ≤ i
  | .after, _ => true

def ResizePc.written : ResizePc → Bool
  | .writeNew => false
  | pc => pc.progress ≠ .before

/-- The bucket headers `H` of both tables, and those that `resize` has read. -/
structure Headers (x : Split) (H : ℕ → Header) (r : Resizer) : Prop where
  old : ∀ b < kTotalBuckets, H (bucketAddr x.oldTable b) =
    ⟨if r.pc.progress.marked b then x.depth + 1 else x.depth, x.oldSuffix⟩
  read : r.pc.progress.active → ∀ b < kTotalBuckets, r.pc.progress.marked b = false →
    r.oldHeader b = ⟨x.depth, x.oldSuffix⟩
  new : r.pc.written → ∀ b < kTotalBuckets, H (bucketAddr x.newTable b) =
    ⟨x.depth + 1, x.newSuffix⟩

variable {x : Split} {hash : Bytes → Hashes} {alloc : ℕ → ℕ} {m m' : Memory}
  {r r' : Resizer} {H : ℕ → Header}

/-! ### Steps on the directory -/

def ResizePc.onDirectory : ResizePc → Bool
  | .readOld | .writeNew | .bucket _ | .copy .. | .clear .. | .undo .. | .returned => false
  | _ => true

/-- The step leaves the tables of `resize` alone. -/
structure Resizer.SameTables (r r' : Resizer) : Prop where
  oldHeader : r'.oldHeader = r.oldHeader
  oldSlot : r'.oldSlot = r.oldSlot
  newSlot : r'.newSlot = r.newSlot

theorem Resizer.lock_frame (s : ℕ) :
    (∃ d, (r.lock m s).1 = { m with dir := d }) ∧ (r.lock m s).2.pc = r.pc ∧
      r.SameTables (r.lock m s).2 := by
  rw [Resizer.lock]
  split <;> exact ⟨⟨_, rfl⟩, rfl, rfl, rfl, rfl⟩

theorem Resizer.fix_frame (s pointer : ℕ) : (∃ d, (r.fix m s pointer).1 = { m with dir := d }) ∧
      r.SameTables (r.fix m s pointer).2 := by
  rw [Resizer.fix]
  split
  · exact ⟨⟨_, rfl⟩, rfl, rfl, rfl⟩
  · split <;> exact ⟨⟨_, rfl⟩, rfl, rfl, rfl⟩

/-- An operation on the directory, and what it does not touch. -/
structure OnDirectory (m m' : Memory) (r r' : Resizer) : Prop where
  memory : ∃ d, m' = { m with dir := d }
  tables : r.SameTables r'
  progress : r.pc ≠ .unlockNew →
    r'.pc.progress = r.pc.progress ∧ r'.pc.written = r.pc.written

theorem OnDirectory.of_pc {pc : ResizePc} (h : r.pc = pc) (hm : ∃ d, m' = { m with dir := d })
    (ht : r.SameTables r')
    (hp : r'.pc.progress = pc.progress ∧ r'.pc.written = pc.written) : OnDirectory m m' r r' :=
  ⟨hm, ht, fun _ => h ▸ hp⟩

theorem resizeStep_onDirectory (hpc : r.pc.onDirectory) (hne : r.pc ≠ .lockNew)
    (hn : resizeStep hash alloc m r = some (m', r')) : OnDirectory m m' r r' := by
  unfold resizeStep at hn
  generalize h : r.pc = pc at hn
  cases pc with
  | readOld | writeNew | bucket | copy | clear | undo | returned =>
    simp [h, ResizePc.onDirectory] at hpc
  | lockNew => exact absurd h hne
  | start =>
    cases hn
    split
    · exact ⟨⟨_, rfl⟩, ⟨rfl, rfl, rfl⟩, fun _ => ⟨rfl, rfl⟩⟩
    · exact .of_pc h ⟨_, rfl⟩ ⟨rfl, rfl, rfl⟩ ⟨rfl, rfl⟩
  | size =>
    cases hn
    refine .of_pc h ⟨_, rfl⟩ ⟨rfl, rfl, rfl⟩ ?_
    split <;> exact ⟨rfl, rfl⟩
  | growWrite | growPublish | writeOldEntry | writeNewEntry | unlockOld =>
    cases hn
    exact .of_pc h ⟨_, rfl⟩ ⟨rfl, rfl, rfl⟩ ⟨rfl, rfl⟩
  | growCas g =>
    dsimp only at hn
    split at hn
    · cases hn
      refine .of_pc h ?_ ⟨rfl, rfl, rfl⟩ ⟨rfl, rfl⟩
      split <;> exact ⟨_, rfl⟩
    · cases hn
  | growRead g =>
    dsimp only at hn
    split at hn <;> cases hn
    · exact .of_pc h ⟨_, rfl⟩ ⟨rfl, rfl, rfl⟩ ⟨rfl, rfl⟩
    · split <;> exact .of_pc h ⟨_, rfl⟩ ⟨rfl, rfl, rfl⟩ ⟨rfl, rfl⟩
  | lockOld =>
    cases hn
    obtain ⟨hd, hp, hs⟩ := r.lock_frame (m := m) r.oldSuffix
    split
    · exact .of_pc h hd ⟨hs.oldHeader, hs.oldSlot, hs.newSlot⟩ ⟨rfl, rfl⟩
    · exact ⟨hd, hs, fun _ => by rw [hp]; exact ⟨rfl, rfl⟩⟩
  | fixOld s =>
    dsimp only at hn
    split at hn <;> cases hn
    · obtain ⟨hd, hs⟩ := r.fix_frame (m := m) s (r.dirCache.subtables s).pointer
      exact .of_pc h hd ⟨hs.oldHeader, hs.oldSlot, hs.newSlot⟩ ⟨rfl, rfl⟩
    · exact .of_pc h ⟨_, rfl⟩ ⟨rfl, rfl, rfl⟩ ⟨rfl, rfl⟩
  | fixNew s =>
    dsimp only at hn
    split at hn <;> cases hn
    · obtain ⟨hd, hs⟩ := r.fix_frame (m := m) s
        (r.dirCache.subtables (r.oldSuffix + 2 ^ r.fixDepth)).pointer
      exact .of_pc h hd ⟨hs.oldHeader, hs.oldSlot, hs.newSlot⟩ ⟨rfl, rfl⟩
    · exact .of_pc h ⟨_, rfl⟩ ⟨rfl, rfl, rfl⟩ ⟨rfl, rfl⟩
  | unlockNew =>
    cases hn
    refine ⟨⟨_, rfl⟩, ?_, fun hu => absurd h hu⟩
    split <;> exact ⟨rfl, rfl, rfl⟩

/-- What a step of `resize` is on: the directory, the new table, or a bucket. -/
inductive StepKind (hash : Bytes → Hashes) (m m' : Memory) (r r' : Resizer) : Prop
  | dir (hne : r.pc ≠ .unlockNew) (h : OnDirectory m m' r r')
  | lockNew (hpc : r.pc = .lockNew) (hd : ∃ d, m' = { m with dir := d })
  | readOld (hpc : r.pc = .readOld) (hm : m' = m)
  | writeNew (hpc : r.pc = .writeNew)
  | move (hm : r.pc.moving) (h : MoveStep hash m r m' r')
  | unlockNew (hpc : r.pc = .unlockNew) (h : OnDirectory m m' r r')

theorem resizeStep_kind (hn : resizeStep hash alloc m r = some (m', r')) :
    StepKind hash m m' r r' := by
  cases hpc : r.pc with
  | lockNew =>
    simp only [resizeStep, hpc] at hn
    cases hn
    exact .lockNew hpc (r.lock_frame r.newSuffix).1
  | readOld =>
    simp only [resizeStep, hpc] at hn
    cases hn
    exact .readOld hpc rfl
  | writeNew => exact .writeNew hpc
  | bucket | copy | clear | undo =>
    have hm : r.pc.moving := by rw [hpc]; rfl
    exact .move hm (resizeStep_moving hm hn)
  | unlockNew =>
    exact .unlockNew hpc (resizeStep_onDirectory (hpc ▸ rfl) (by simp [hpc]) hn)
  | returned => simp [resizeStep, hpc] at hn
  | start | size | growCas | growRead | growWrite | growPublish | lockOld | writeOldEntry
  | writeNewEntry | fixOld | fixNew | unlockOld =>
    exact .dir (by simp [hpc]) (resizeStep_onDirectory (hpc ▸ rfl) (by simp [hpc]) hn)

theorem resizeStep_block (hn : resizeStep hash alloc m r = some (m', r')) : m'.block = m.block := by
  cases resizeStep_kind hn with
  | dir _ h | unlockNew _ h =>
    obtain ⟨d, rfl⟩ := h.memory
    rfl
  | lockNew _ hd =>
    obtain ⟨d, rfl⟩ := hd
    rfl
  | readOld _ hm => rw [hm]
  | writeNew hpc =>
    simp only [resizeStep, hpc] at hn
    cases hn
    rfl
  | move _ h => cases h <;> rfl

/-! ### Bucket headers -/

theorem Headers.congr (h : Headers x H r) (hold : r'.oldHeader = r.oldHeader)
    (hmark : ∀ b < kTotalBuckets, r'.pc.progress.marked b = r.pc.progress.marked b)
    (hact : r'.pc.progress.active → r.pc.progress.active)
    (hw : r'.pc.written → r.pc.written) : Headers x H r' := by
  refine ⟨fun b hb => ?_, fun ha b hb hm => ?_, fun hwr => h.new (hw hwr)⟩
  · rw [hmark b hb]
    exact h.old b hb
  · rw [hold]
    exact h.read (hact ha) b hb (hmark b hb ▸ hm)

/-- `move_bucket` passes over no bucket. -/
theorem Headers.not_pass (h : Headers x m.header r) (hc : x.Control alloc m.dir r) {i : ℕ}
    (hpc : r.pc = .bucket i) (hi : i < kTotalBuckets) : r.oldHeader i = ⟨x.depth, x.oldSuffix⟩ ∧
      ¬ (r.resizeSuffix.isSome ∨ (r.oldHeader i).localDepth ≠ r.depth) := by
  have hri := h.read (by rw [hpc]; trivial) i hi
    (by simp [hpc, ResizePc.progress, Progress.marked])
  simp [hri, hc.overflow, (hc.planned (hpc ▸ rfl)).depth]

section
variable (hc : x.Control alloc m.dir r) (h : Headers x m.header r)
  (hn : resizeStep hash alloc m r = some (m', r'))
include hc h hn

theorem Headers.step_lockNew (hpc : r.pc = .lockNew) (hd : ∃ d, m' = { m with dir := d }) :
    Headers x m'.header r' := by
  obtain ⟨hpc', -⟩ := hc.step_lockNew hn hpc
  obtain ⟨d, rfl⟩ := hd
  refine ⟨?_, fun ha => ?_, fun hw => ?_⟩
  · simpa [hpc, hpc', ResizePc.progress] using h.old
  · rw [hpc'] at ha
    exact ha.elim
  · simp [hpc', ResizePc.written, ResizePc.progress] at hw

theorem Headers.step_readOld (hpc : r.pc = .readOld) : Headers x m'.header r' := by
  have hptr := hc.oldEntry_pointer (hpc ▸ rfl)
  have hold := h.old
  rw [hpc] at hold
  simp only [resizeStep, hpc, hptr] at hn
  cases hn
  refine ⟨?_, fun _ b hb _ => ?_, fun hw => ?_⟩
  · simpa [ResizePc.progress, Progress.marked] using hold
  · simpa [ResizePc.progress, Progress.marked] using hold b hb
  · cases hw

theorem Headers.step_writeNew (hap : Apart x.oldTable x.newTable) (hpc : r.pc = .writeNew) :
    Headers x m'.header r' := by
  have hd := (hc.planned (hpc ▸ rfl)).depth
  have hptr := hc.newEntry_pointer (hpc ▸ rfl)
  have hold := h.old
  have hread := h.read
  rw [hpc] at hold hread
  simp only [resizeStep, hpc, hptr, hd, hc.newSuffix_eq hd] at hn
  cases hn
  refine ⟨fun b hb => ?_, hread, fun _ b hb => ?_⟩
  · have hout : ¬ (x.newTable ≤ bucketAddr x.oldTable b ∧
        bucketAddr x.oldTable b < x.newTable + bucketBytes * kTotalBuckets) := by
      unfold Apart at hap
      simp only [bucketAddr, bucketBytes] at hap ⊢
      omega
    simp only [Memory.writeTable, if_neg hout]
    exact hold b hb
  · have hin : x.newTable ≤ bucketAddr x.newTable b ∧
        bucketAddr x.newTable b < x.newTable + bucketBytes * kTotalBuckets := by
      simp only [bucketAddr, bucketBytes]
      omega
    simp only [Memory.writeTable, if_pos hin]

omit hn in
theorem Headers.step_move (hap : Apart x.oldTable x.newTable)
    (hle : ∀ i, r.pc = .bucket i → i ≤ kTotalBuckets) (hun : ∀ i n l, r.pc ≠ .undo i n l)
    (hun' : ∀ i n l, r'.pc ≠ .undo i n l) (hm : r.pc.moving) (hs : MoveStep hash m r m' r') :
    Headers x m'.header r' := by
  have hlate := ResizePc.early_of_moving hm
  have hold := h.old
  have hread := h.read
  have hnew := h.new
  cases hs with
  | undo hpc => exact absurd hpc (hun _ _ _)
  | @enter i hpc hi =>
    rw [hpc] at hold hread hnew
    have hmi : m.header (bucketAddr x.oldTable i) = ⟨x.depth, x.oldSuffix⟩ := by
      rw [hold i hi]
      simp [ResizePc.progress, Progress.marked]
    have haddr : ∀ b, b ≠ i → bucketAddr x.oldTable b ≠ bucketAddr x.oldTable i := by
      intro b hb
      simp only [bucketAddr, bucketBytes]
      omega
    rw [hc.oldEntry_pointer hlate, (h.not_pass hc hpc hi).1, (hc.planned hlate).depth,
      Cas.cas_of_eq hmi]
    refine ⟨fun b hb => ?_, fun _ b hb hm => ?_, fun _ b hb => ?_⟩
    · by_cases hbi : b = i
      · subst hbi
        simp [ResizePc.progress, Progress.marked]
      · have hle : b ≤ i ↔ b < i := by omega
        simpa [update_of_ne (haddr b hbi), ResizePc.progress, Progress.marked, hle]
          using hold b hb
    · have hbi : i < b := by simpa [ResizePc.progress, Progress.marked] using hm
      simp only [update_of_ne hbi.ne']
      exact hread trivial b hb (by simp [ResizePc.progress, Progress.marked]; omega)
    · have hne : bucketAddr x.newTable b ≠ bucketAddr x.oldTable i := by
        unfold Apart at hap
        simp only [bucketAddr, bucketBytes] at hap ⊢
        omega
      simp only [update_of_ne hne]
      exact hnew rfl b hb
  | pass hpc hi hs => exact absurd hs (h.not_pass hc hpc hi).2
  | leave hpc hi =>
    obtain rfl := le_antisymm (hle _ hpc) (not_lt.mp hi)
    rw [hpc] at hold hread hnew
    exact ⟨hold, hread, hnew⟩
  | skip hpc | take hpc | taken hpc | used hpc | noRoom hpc | copied hpc =>
    rw [hpc] at hold hread hnew
    exact ⟨hold, hread, hnew⟩
  | cleared hpc =>
    refine h.congr rfl (fun b _ => ?_) (fun _ => ?_) (fun _ => ?_) <;> rw [hpc]
    · simp [ResizePc.progress, Progress.marked]
    · trivial
    · rfl
  | clear hpc =>
    have hne : ¬ m.slot (slotAddr r.oldEntry.pointer _ _) = .null :=
      fun he => hun' _ _ _ (if_pos he)
    refine h.congr rfl (fun b _ => ?_) (fun _ => ?_) (fun _ => ?_) <;>
      simp only [if_neg hne, hpc]
    · rfl
    · trivial
    · rfl

theorem Headers.step (hap : Apart x.oldTable x.newTable)
    (hle : ∀ i, r.pc = .bucket i → i ≤ kTotalBuckets) (hun : ∀ i n l, r.pc ≠ .undo i n l)
    (hun' : ∀ i n l, r'.pc ≠ .undo i n l) : Headers x m'.header r' := by
  cases resizeStep_kind hn with
  | lockNew hpc hd => exact h.step_lockNew hc hn hpc hd
  | readOld hpc => exact h.step_readOld hc hn hpc
  | writeNew hpc => exact h.step_writeNew hc hn hap hpc
  | move hm hs => exact h.step_move hc hap hle hun hun' hm hs
  | unlockNew hpc hon =>
    obtain ⟨hpc', -⟩ := hc.step_unlockNew hn hpc
    obtain ⟨⟨d, rfl⟩, htab, -⟩ := hon
    refine h.congr htab.oldHeader ?_ ?_ ?_
    · intro b hb
      simp [hpc, hpc', ResizePc.progress, Progress.marked, hb]
    · intro ha
      rw [hpc'] at ha
      exact ha.elim
    · intro _
      rw [hpc]
      rfl
  | dir hne hon =>
    obtain ⟨⟨d, rfl⟩, htab, hprog⟩ := hon
    obtain ⟨hp, hw⟩ := hprog hne
    exact h.congr htab.oldHeader (fun b _ => by rw [hp]) (fun ha => hp ▸ ha) fun hwr => hw ▸ hwr

end

end Fusa.Table

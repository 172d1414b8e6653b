import Fusa.Table.Layout

/-! `RemoteHashTable::resize`, one remote operation at a time, and the steps of `move_bucket`. -/
namespace Fusa.Table
open Function

/-- How `resize` goes on after `fix_local_depth`, `move_bucket` and the unlocks. -/
inductive ResizeExit
  | retry
  | leave
  | finish
deriving DecidableEq, Repr

/-- The next operation. In `copy i j n l`, `move_bucket` is at `old_id = j` and `new_id = n` of
bucket `i` and has copied the pairs `l`; `clear` and `undo` go through them. -/
inductive ResizePc
  | start
  | size
  | growCas (depth : ℕ)
  | growRead (depth : ℕ)
  | growWrite (depth : ℕ)
  | growPublish
  | lockOld
  | lockNew
  | readOld
  | writeNew
  | writeOldEntry
  | writeNewEntry
  | fixOld (suffix : ℕ)
  | fixNew (suffix : ℕ)
  | bucket (i : ℕ)
  | copy (i j n : ℕ) (l : List (ℕ × ℕ))
  | clear (i : ℕ) (l : List (ℕ × ℕ))
  | undo (i n : ℕ) (l : List (ℕ × ℕ))
  | unlockOld
  | unlockNew
  | returned
deriving DecidableEq, Repr

/-- The locals of `resize`, the cached directory, the thread's tables and the number of new ones. -/
structure Resizer where
  pc : ResizePc
  subtableIdx : ℕ
  dirCache : Directory
  depth : ℕ
  globalDepth : ℕ
  casBuf : ℕ × Bool
  fixDepth : ℕ
  exit : ResizeExit
  allocs : ℕ
  oldHeader : ℕ → Header
  oldSlot : ℕ → ℕ → Slot
  newSlot : ℕ → ℕ → Slot
  resizeSuffix : Option ℕ

/-- The upper half of a directory that `resize_directory` doubles from depth `g`. -/
def Directory.grow (d : Directory) (g : ℕ) : Directory where
  globalDepth := g + 1
  locked := false
  subtables i :=
    if 2 ^ g ≤ i ∧ i < 2 ^ (g + 1) then { d.subtables (i - 2 ^ g) with lock := 0 }
    else d.subtables i

def Memory.setEntry (m : Memory) (i : ℕ) (e : SubTableEntry) : Memory :=
  { m with dir := m.dir.setEntry i e }

def Memory.writeTable (m : Memory) (base : ℕ) (h : Header) : Memory :=
  { m with
    header := fun a =>
      if base ≤ a ∧ a < base + bucketBytes * kTotalBuckets then h else m.header a
    slot := fun a =>
      if base ≤ a ∧ a < base + bucketBytes * kTotalBuckets then .null else m.slot a }

namespace Resizer

variable (r : Resizer)

def oldSuffix : ℕ := r.subtableIdx % 2 ^ r.depth

def newSuffix : ℕ := r.oldSuffix + 2 ^ r.depth

def oldEntry : SubTableEntry := r.dirCache.subtables r.oldSuffix

def newEntry : SubTableEntry := r.dirCache.subtables r.newSuffix

def setCache (i : ℕ) (e : SubTableEntry) : Resizer :=
  { r with dirCache := r.dirCache.setEntry i e }

def setOldSlot (i j : ℕ) (s : Slot) : Resizer :=
  { r with oldSlot := update r.oldSlot i (update (r.oldSlot i) j s) }

def setNewSlot (i n : ℕ) (s : Slot) : Resizer :=
  { r with newSlot := update r.newSlot i (update (r.newSlot i) n s) }

/-- The label `retry`. -/
def plan : Resizer :=
  { r with
    depth := (r.dirCache.subtables r.subtableIdx).localDepth
    globalDepth := r.dirCache.globalDepth
    pc := .size }

/-- `lock_subtable`: the cached entry becomes the locked one, or what the CAS found. -/
def lock (m : Memory) (suffix : ℕ) : Memory × Resizer :=
  let e := r.dirCache.subtables suffix
  if m.dir.subtables suffix = { e with lock := 0 } then
    (m.setEntry suffix { e with lock := 1 }, r.setCache suffix { e with lock := 1 })
  else (m, r.setCache suffix (m.dir.subtables suffix))

def unlock (m : Memory) (suffix : ℕ) : Memory × Resizer :=
  let e := { r.dirCache.subtables suffix with lock := 0 }
  (m.setEntry suffix e, r.setCache suffix e)

/-- What `resize` does once both entries are locked. -/
def branch (table : ℕ) : Resizer :=
  if r.oldEntry.localDepth ≠ r.depth ∨ r.newEntry.localDepth ≠ r.depth then
    let depth := max (max r.oldEntry.localDepth r.newEntry.localDepth) r.depth
    { r with exit := .retry, fixDepth := depth, pc := .fixOld (r.oldSuffix + 2 ^ (depth + 1)) }
  else if r.oldEntry.pointer ≠ r.newEntry.pointer then
    { r with exit := .leave, fixDepth := r.depth, pc := .fixOld (r.oldSuffix + 2 ^ (r.depth + 1)) }
  else
    let r := r.setCache r.newSuffix
      { r.newEntry with localDepth := r.depth + 1, pointer := table }
    let r := r.setCache r.oldSuffix { r.oldEntry with localDepth := r.depth + 1 }
    { r with exit := .finish, fixDepth := r.depth, allocs := r.allocs + 1,
             newSlot := fun _ _ => .null, pc := .readOld }

/-- One turn of a loop of `fix_local_depth`. -/
def fix (m : Memory) (suffix pointer : ℕ) : Memory × Resizer :=
  let e := r.dirCache.subtables suffix
  let new : SubTableEntry := ⟨0, r.fixDepth + 1, pointer⟩
  if e.localDepth > r.fixDepth ∨ e.lock ≠ 0 then (m, r)
  else if m.dir.subtables suffix = e then (m.setEntry suffix new, r.setCache suffix new)
  else (m, r.setCache suffix (m.dir.subtables suffix))

end Resizer

variable (hash : Bytes → Hashes)

/-- Whether `move_bucket` moves a slot: the suffix of the key stored in its block. -/
def movesTo (block : ℕ → Option Block) (depth suffix : ℕ) (s : Slot) : Bool :=
  match block s.pointer with
  | some b => (hash b.storedKey).h0.toNat % 2 ^ (depth + 1) = suffix
  | none => false

/-- The step of `resize`, where `alloc` answers the calls of `alloc_memory` in turn. -/
def resizeStep (alloc : ℕ → ℕ) (m : Memory) (r : Resizer) : Option (Memory × Resizer) :=
  match r.pc with
  | .returned => none
  | .start => some (m, if m.dir.locked then r else { r with dirCache := m.dir }.plan)
  | .size =>
    some (m, { r with
      pc := if r.newSuffix ≥ 2 ^ r.globalDepth then .growCas r.globalDepth else .lockOld })
  | .growCas g =>
    if g + 1 ≤ kMaxGlobalDepth then
      let found := (m.dir.globalDepth, m.dir.locked)
      some (if found = (g, false) then
              { m with dir := { m.dir with globalDepth := g + 1, locked := true } } else m,
        { r with casBuf := found, pc := .growRead g })
    else none
  | .growRead g =>
    if r.casBuf = (g, false) then
      some (m, { r with dirCache := m.dir.grow g, pc := .growWrite g })
    else
      let r := { r with dirCache := m.dir }
      some (m, if r.casBuf.1 ≥ r.globalDepth then
          { r with globalDepth := m.dir.globalDepth, pc := .size }
        else { r with pc := .growCas r.casBuf.1 })
  | .growWrite g =>
    some ({ m with dir :=
        { m.dir with subtables := fun i =>
            if 2 ^ g ≤ i ∧ i < 2 ^ (g + 1) then r.dirCache.subtables i else m.dir.subtables i } },
      { r with pc := .growPublish })
  | .growPublish =>
    some ({ m with dir :=
        { m.dir with globalDepth := r.dirCache.globalDepth, locked := r.dirCache.locked } },
      { r with globalDepth := r.dirCache.globalDepth, pc := .size })
  | .lockOld =>
    let p := r.lock m r.oldSuffix
    some (p.1, if m.dir.subtables r.oldSuffix = { r.oldEntry with lock := 0 } then
      { p.2 with pc := .lockNew } else p.2)
  | .lockNew =>
    let p := r.lock m r.newSuffix
    some (p.1, if m.dir.subtables r.newSuffix = { r.newEntry with lock := 0 } then
      p.2.branch (alloc r.allocs) else p.2)
  | .readOld =>
    some (m, { r with
      oldHeader := fun b => m.header (bucketAddr r.oldEntry.pointer b)
      oldSlot := fun b j => m.slot (slotAddr r.oldEntry.pointer b j)
      pc := .writeNew })
  | .writeNew =>
    some (m.writeTable r.newEntry.pointer ⟨r.depth + 1, r.newSuffix⟩,
      { r with pc := .writeOldEntry })
  | .writeOldEntry =>
    some (m.setEntry r.oldSuffix r.oldEntry, { r with pc := .writeNewEntry })
  | .writeNewEntry =>
    some (m.setEntry r.newSuffix r.newEntry,
      { r with pc := .fixOld (r.oldSuffix + 2 ^ (r.fixDepth + 1)) })
  | .fixOld s =>
    if s < 2 ^ r.globalDepth then
      let p := r.fix m s (r.dirCache.subtables s).pointer
      some (p.1, { p.2 with pc := .fixOld (s + 2 ^ (r.fixDepth + 1)) })
    else
      some (m, { r with
        pc := .fixNew (r.oldSuffix + 2 ^ r.fixDepth + 2 ^ (r.fixDepth + 1)) })
  | .fixNew s =>
    if s < 2 ^ r.globalDepth then
      let p := r.fix m s (r.dirCache.subtables (r.oldSuffix + 2 ^ r.fixDepth)).pointer
      some (p.1, { p.2 with pc := .fixNew (s + 2 ^ (r.fixDepth + 1)) })
    else some (m, { r with pc := .bucket 0 })
  | .bucket i =>
    if i < kTotalBuckets then
      if r.resizeSuffix.isSome ∨ (r.oldHeader i).localDepth ≠ r.depth then
        some (m, { r with pc := .bucket (i + 1) })
      else
        let a := bucketAddr r.oldEntry.pointer i
        let new : Header := ⟨r.depth + 1, (r.oldHeader i).suffix⟩
        some ({ m with header := Cas.cas m.header a (r.oldHeader i) new },
          { r with oldHeader := update r.oldHeader i (m.header a), pc := .copy i 0 0 [] })
    else some (m, { r with pc := .unlockOld })
  | .copy i j n l =>
    if j < kAssociatedWays then
      let s := r.oldSlot i j
      if s = .null ∨ movesTo hash m.block r.depth r.newSuffix s = false then
        some (m, { r with pc := .copy i (j + 1) 0 l })
      else if n < kAssociatedWays then
        if r.newSlot i n = .null then
          let a := slotAddr r.newEntry.pointer i n
          some (m.casSlot a .null s,
            { r.setNewSlot i n (m.slot a) with
              pc := if m.slot a = .null then .copy i (j + 1) 0 (l ++ [(j, n)])
                else .copy i j (n + 1) l })
        else some (m, { r with pc := .copy i j (n + 1) l })
      else some (m, { r with resizeSuffix := some r.newSuffix, pc := .clear i l })
    else some (m, { r with pc := .clear i l })
  | .clear i [] => some (m, { r with pc := .bucket (i + 1) })
  | .clear i ((j, n) :: l) =>
    let a := slotAddr r.oldEntry.pointer i j
    some (m.casSlot a (r.oldSlot i j) .null,
      { r.setOldSlot i j (m.slot a) with
        pc := if m.slot a = .null then .undo i n l else .clear i l })
  | .undo i n l =>
    let a := slotAddr r.newEntry.pointer i n
    some (m.casSlot a (r.newSlot i n) .null, { r.setNewSlot i n (m.slot a) with pc := .clear i l })
  | .unlockOld =>
    let p := r.unlock m r.oldSuffix
    some (p.1, { p.2 with pc := .unlockNew })
  | .unlockNew =>
    let p := r.unlock m r.newSuffix
    some (p.1,
      match r.exit, r.resizeSuffix with
      | .retry, _ => p.2.plan
      | .leave, _ => { p.2 with pc := .returned }
      | .finish, none => { p.2 with pc := .returned }
      | .finish, some x => { p.2 with resizeSuffix := none, subtableIdx := x, pc := .start })

/-- `move_bucket` passes over a slot of the old bucket. -/
def Skips (block : ℕ → Option Block) (r : Resizer) (i j : ℕ) : Prop :=
  r.oldSlot i j = .null ∨ movesTo hash block r.depth r.newSuffix (r.oldSlot i j) = false

def ResizePc.moving : ResizePc → Bool
  | .bucket _ | .copy .. | .clear .. | .undo .. => true
  | _ => false

/-- The CAS on a header (`enter`), the search for a free slot, and the loop over the copies. -/
inductive MoveStep (m : Memory) (r : Resizer) : Memory → Resizer → Prop
  | enter {i : ℕ} (hpc : r.pc = .bucket i) (hi : i < kTotalBuckets)
      (hd : (r.oldHeader i).localDepth = r.depth) :
      MoveStep m r
        { m with
          header := Cas.cas m.header (bucketAddr r.oldEntry.pointer i) (r.oldHeader i)
            ⟨r.depth + 1, (r.oldHeader i).suffix⟩ }
        { r with
          oldHeader := Function.update r.oldHeader i (m.header (bucketAddr r.oldEntry.pointer i))
          pc := .copy i 0 0 [] }
  | pass {i : ℕ} (hpc : r.pc = .bucket i) (hi : i < kTotalBuckets)
      (hs : r.resizeSuffix.isSome ∨ (r.oldHeader i).localDepth ≠ r.depth) :
      MoveStep m r m { r with pc := .bucket (i + 1) }
  | leave {i : ℕ} (hpc : r.pc = .bucket i) (hi : ¬ i < kTotalBuckets) :
      MoveStep m r m { r with pc := .unlockOld }
  | skip {i j n : ℕ} {l : List (ℕ × ℕ)} (hpc : r.pc = .copy i j n l) (hj : j < kAssociatedWays)
      (hs : Skips hash m.block r i j) : MoveStep m r m { r with pc := .copy i (j + 1) 0 l }
  | take {i j n : ℕ} {l : List (ℕ × ℕ)} (hpc : r.pc = .copy i j n l) (hj : j < kAssociatedWays)
      (hs : ¬ Skips hash m.block r i j) (hn : n < kAssociatedWays) (hb : r.newSlot i n = .null)
      (ha : m.slot (slotAddr r.newEntry.pointer i n) = .null) :
      MoveStep m r
        { m with
          slot := Function.update m.slot (slotAddr r.newEntry.pointer i n) (r.oldSlot i j) }
        { r.setNewSlot i n .null with pc := .copy i (j + 1) 0 (l ++ [(j, n)]) }
  | taken {i j n : ℕ} {l : List (ℕ × ℕ)} (hpc : r.pc = .copy i j n l) (hj : j < kAssociatedWays)
      (hs : ¬ Skips hash m.block r i j) (hn : n < kAssociatedWays)
      (ha : m.slot (slotAddr r.newEntry.pointer i n) ≠ .null) :
      MoveStep m r m
        { r.setNewSlot i n (m.slot (slotAddr r.newEntry.pointer i n)) with
          pc := .copy i j (n + 1) l }
  | used {i j n : ℕ} {l : List (ℕ × ℕ)} (hpc : r.pc = .copy i j n l) (hj : j < kAssociatedWays)
      (hs : ¬ Skips hash m.block r i j) (hn : n < kAssociatedWays) (hb : r.newSlot i n ≠ .null) :
      MoveStep m r m { r with pc := .copy i j (n + 1) l }
  | noRoom {i j n : ℕ} {l : List (ℕ × ℕ)} (hpc : r.pc = .copy i j n l) (hj : j < kAssociatedWays)
      (hs : ¬ Skips hash m.block r i j) (hn : ¬ n < kAssociatedWays) :
      MoveStep m r m { r with resizeSuffix := some r.newSuffix, pc := .clear i l }
  | copied {i j n : ℕ} {l : List (ℕ × ℕ)} (hpc : r.pc = .copy i j n l)
      (hj : ¬ j < kAssociatedWays) : MoveStep m r m { r with pc := .clear i l }
  | cleared {i : ℕ} (hpc : r.pc = .clear i []) : MoveStep m r m { r with pc := .bucket (i + 1) }
  | clear {i j n : ℕ} {l : List (ℕ × ℕ)} (hpc : r.pc = .clear i ((j, n) :: l)) :
      MoveStep m r (m.casSlot (slotAddr r.oldEntry.pointer i j) (r.oldSlot i j) .null)
        { r.setOldSlot i j (m.slot (slotAddr r.oldEntry.pointer i j)) with
          pc := if m.slot (slotAddr r.oldEntry.pointer i j) = .null then .undo i n l
            else .clear i l }
  | undo {i n : ℕ} {l : List (ℕ × ℕ)} (hpc : r.pc = .undo i n l) :
      MoveStep m r (m.casSlot (slotAddr r.newEntry.pointer i n) (r.newSlot i n) .null)
        { r.setNewSlot i n (m.slot (slotAddr r.newEntry.pointer i n)) with pc := .clear i l }

variable {hash} {alloc : ℕ → ℕ} {m m' : Memory} {r r' : Resizer}

theorem resizeStep_moving (hpc : r.pc.moving) (h : resizeStep hash alloc m r = some (m', r')) :
    MoveStep hash m r m' r' := by
  unfold resizeStep at h
  generalize hp : r.pc = pc at h
  cases pc with
  | bucket i =>
    dsimp only at h
    split at h
    · rename_i hi
      split at h <;> rename_i hs <;> cases h
      · exact .pass hp hi hs
      · rw [not_or, not_not] at hs
        exact .enter hp hi hs.2
    · rename_i hi
      cases h
      exact .leave hp hi
  | copy i j n l =>
    dsimp only at h
    split at h
    · rename_i hj
      split at h
      · rename_i hs
        cases h
        exact .skip hp hj hs
      · rename_i hs
        split at h
        · rename_i hn
          split at h <;> rename_i hb <;> cases h
          · by_cases ha : m.slot (slotAddr r.newEntry.pointer i n) = .null
            · rw [casSlot_of_eq ha, if_pos ha, ha]
              exact .take hp hj hs hn hb ha
            · rw [casSlot_of_ne ha, if_neg ha]
              exact .taken hp hj hs hn ha
          · exact .used hp hj hs hn hb
        · rename_i hn
          cases h
          exact .noRoom hp hj hs hn
    · rename_i hj
      cases h
      exact .copied hp hj
  | clear i l =>
    cases l with
    | nil =>
      cases h
      exact .cleared hp
    | cons q l =>
      cases h
      exact .clear hp
  | undo i n l =>
    cases h
    exact .undo hp
  | _ => simp [hp, ResizePc.moving] at hpc

end Fusa.Table

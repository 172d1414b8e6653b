import Fusa.Lib.LeastScan
import Fusa.Table.Layout

/-! `RemoteHashTable::insert`, one remote operation at a time. Blocks are written once, so
`read_block` is no step of its own. -/
namespace Fusa.Table

/-- The next remote operation: the first loop (`find0` to `claim`), the second (`check0`, `check1`),
its branch for a split bucket (`moveDir` to `moveClear`), and its loop over duplicates. -/
inductive InsertPc
  | idle
  | find0
  | find1
  | full
  | claim (q : ℕ)
  | check0
  | check1
  | moveDir
  | move0
  | move1
  | moveClaim (q : ℕ)
  | moveClear
  | delete (l : List ℕ)
  | returned
deriving DecidableEq, Repr

/-- Arguments, locals and buffers of a call: `base` is the subtable of `bucket`, `slotPos` the entry
of the buffer that `slot` points to. -/
structure InsertCall where
  pc : InsertPc
  key : Bytes
  value : Bytes
  newSlot : Slot
  dirCache : Directory
  base : ℕ
  buf : Buf
  slotAddr : ℕ
  slotBucket : ℕ
  slotPos : ℕ

section
variable (hash : Bytes → Hashes)

namespace InsertCall

variable (c : InsertCall)

def entry : SubTableEntry := c.dirCache.entry (hash c.key)

def addr (q : ℕ) : ℕ := posAddr c.base (hash c.key) q

def read (m : Memory) (r : ℕ) : Buf := readGroup m (c.entry hash).pointer (hash c.key) r c.buf

/-- The loop takes `q`: the fingerprint agrees, and the slot is its own or its block accepted. -/
def accepts (m : Memory) (q : ℕ) : Bool :=
  c.buf.slot q ≠ .null ∧ (c.buf.slot q).fp = c.newSlot.fp ∧
    (c.addr hash q = c.slotAddr ∨ ((m.block (c.buf.slot q).pointer).bind (readBlock c.key)).isSome)

def duplicates (m : Memory) : LeastScan.Found ℕ :=
  LeastScan.scan (c.addr hash) (c.accepts hash m) positions

def check (m : Memory) : InsertPc :=
  if stale (hash c.key) (c.entry hash) (c.buf.header c.slotBucket) then .moveDir
  else if (c.duplicates hash m).hits.length ≤ 1 then .returned
  else .delete (c.duplicates hash m).rest

end InsertCall

def insertStep (m : Memory) (c : InsertCall) : Option (Memory × InsertCall) :=
  match c.pc with
  | .idle | .full | .returned => none
  | .find0 =>
    some (m, { c with base := (c.entry hash).pointer, buf := c.read hash m 0, pc := .find1 })
  | .find1 =>
    let c := { c with buf := c.read hash m 1 }
    match c.buf.firstEmpty with
    | none => some (m, { c with pc := .full })
    | some q =>
      some (m, { c with slotAddr := c.addr hash q, slotBucket := q / kAssociatedWays, slotPos := q,
                        pc := .claim q })
  | .claim q =>
    let old := m.slot c.slotAddr
    some (m.casSlot c.slotAddr (c.buf.slot q) c.newSlot,
      { c with buf := c.buf.setSlot q old, pc := if old = c.buf.slot q then .check0 else .find0 })
  | .check0 =>
    some (m, { c with base := (c.entry hash).pointer, buf := c.read hash m 0, pc := .check1 })
  | .check1 =>
    let c := { c with buf := c.read hash m 1 }
    some (m, { c with pc := c.check hash m })
  | .moveDir => some (m, if m.dir.locked then c else { c with dirCache := m.dir, pc := .move0 })
  | .move0 => some (m, { c with buf := c.read hash m 0, pc := .move1 })
  | .move1 =>
    let c := { c with buf := c.read hash m 1 }
    match c.buf.firstEmpty with
    | none => some (m, { c with pc := .full })
    | some q => some (m, { c with pc := .moveClaim q })
  | .moveClaim q =>
    -- `move_to_bucket` filled the buffers, but the address is taken from `bucket`
    let old := m.slot (c.addr hash q)
    some (m.casSlot (c.addr hash q) (c.buf.slot q) c.newSlot,
      { c with buf := c.buf.setSlot q old
               pc := if old = c.buf.slot q then .moveClear else .check0 })
  | .moveClear =>
    some (m.casSlot c.slotAddr (c.buf.slot c.slotPos) .null,
      { c with buf := c.buf.setSlot c.slotPos (m.slot c.slotAddr), pc := .check0 })
  | .delete [] => none
  | .delete (q :: l) =>
    let old := m.slot (c.addr hash q)
    some (m.casSlot (c.addr hash q) (c.buf.slot q) .null,
      { c with buf := c.buf.setSlot q old
               slotPos := q
               pc := if old = c.buf.slot q then (if l = [] then .returned else .delete l)
                 else .check0 })

def InsertPc.claimed : InsertPc → Bool
  | .idle | .find0 | .find1 | .full | .claim _ => false
  | _ => true

inductive InsertStep (m : Memory) (c : InsertCall) : Memory → InsertCall → Prop
  | find0 (hpc : c.pc = .find0) : InsertStep m c m
      { c with base := (c.entry hash).pointer, buf := c.read hash m 0, pc := .find1 }
  | full (hpc : c.pc = .find1 ∨ c.pc = .move1) : InsertStep m c m
      { c with buf := c.read hash m 1, pc := .full }
  | pick {q : ℕ} (hpc : c.pc = .find1) (hq : q < 28) (hs : (c.read hash m 1).slot q = .null) :
      InsertStep m c m
        { c with buf := c.read hash m 1, slotAddr := c.addr hash q,
                 slotBucket := q / kAssociatedWays, slotPos := q, pc := .claim q }
  | claim {q : ℕ} (hpc : c.pc = .claim q) (hm : m.slot c.slotAddr = c.buf.slot q) :
      InsertStep m c { m with slot := Function.update m.slot c.slotAddr c.newSlot }
        { c with buf := c.buf.setSlot q (m.slot c.slotAddr), pc := .check0 }
  | lost {q : ℕ} (hpc : c.pc = .claim q) (hm : m.slot c.slotAddr ≠ c.buf.slot q) :
      InsertStep m c m { c with buf := c.buf.setSlot q (m.slot c.slotAddr), pc := .find0 }
  | check0 (hpc : c.pc = .check0) : InsertStep m c m
      { c with base := (c.entry hash).pointer, buf := c.read hash m 0, pc := .check1 }
  | check1 (hpc : c.pc = .check1) : InsertStep m c m
      { c with buf := c.read hash m 1, pc := { c with buf := c.read hash m 1 }.check hash m }
  | moveWait (hpc : c.pc = .moveDir) : InsertStep m c m c
  | moveDir (hpc : c.pc = .moveDir) (hl : m.dir.locked = false) : InsertStep m c m
      { c with dirCache := m.dir, pc := .move0 }
  | move0 (hpc : c.pc = .move0) : InsertStep m c m { c with buf := c.read hash m 0, pc := .move1 }
  | move1 {q : ℕ} (hpc : c.pc = .move1) (hq : q < 28) (hs : (c.read hash m 1).slot q = .null) :
      InsertStep m c m { c with buf := c.read hash m 1, pc := .moveClaim q }
  | moveClaim {q : ℕ} (hpc : c.pc = .moveClaim q) (hm : m.slot (c.addr hash q) = c.buf.slot q) :
      InsertStep m c { m with slot := Function.update m.slot (c.addr hash q) c.newSlot }
        { c with buf := c.buf.setSlot q (m.slot (c.addr hash q)), pc := .moveClear }
  | moveLost {q : ℕ} (hpc : c.pc = .moveClaim q) (hm : m.slot (c.addr hash q) ≠ c.buf.slot q) :
      InsertStep m c m { c with buf := c.buf.setSlot q (m.slot (c.addr hash q)), pc := .check0 }
  | moveClear (hpc : c.pc = .moveClear) :
      InsertStep m c (m.casSlot c.slotAddr (c.buf.slot c.slotPos) .null)
        { c with buf := c.buf.setSlot c.slotPos (m.slot c.slotAddr), pc := .check0 }
  | clear {q : ℕ} {l : List ℕ} (hpc : c.pc = .delete (q :: l))
      (hm : m.slot (c.addr hash q) = c.buf.slot q) :
      InsertStep m c { m with slot := Function.update m.slot (c.addr hash q) .null }
        { c with buf := c.buf.setSlot q (m.slot (c.addr hash q)), slotPos := q,
                 pc := if l = [] then .returned else .delete l }
  | changed {q : ℕ} {l : List ℕ} (hpc : c.pc = .delete (q :: l))
      (hm : m.slot (c.addr hash q) ≠ c.buf.slot q) :
      InsertStep m c m
        { c with buf := c.buf.setSlot q (m.slot (c.addr hash q)), slotPos := q, pc := .check0 }

end

variable {hash : Bytes → Hashes} {m m' : Memory} {c c' : InsertCall}

theorem Buf.firstEmpty_eq_some {b : Buf} {q : ℕ} (h : b.firstEmpty = some q) :
    q < 28 ∧ b.slot q = .null :=
  ⟨mem_positions.mp (List.mem_of_find?_eq_some h), by simpa using List.find?_some h⟩

theorem InsertCall.accepts_congr {buf : Buf} {q : ℕ} (h : buf.slot q = c.buf.slot q) :
    { c with buf := buf }.accepts hash m q = c.accepts hash m q := by
  unfold InsertCall.accepts InsertCall.addr
  rw [h]

theorem insertStep_cases (h : insertStep hash m c = some (m', c')) : InsertStep hash m c m' c' := by
  unfold insertStep at h
  generalize hpc : c.pc = pc at h
  cases pc with
  | idle | full | returned => cases h
  | find0 =>
    cases h
    exact .find0 hpc
  | find1 =>
    dsimp only at h
    split at h
    · cases h
      exact .full (.inl hpc)
    · rename_i q hq
      cases h
      exact .pick hpc (Buf.firstEmpty_eq_some hq).1 (Buf.firstEmpty_eq_some hq).2
  | claim q =>
    cases h
    by_cases hm : m.slot c.slotAddr = c.buf.slot q
    · rw [casSlot_of_eq hm, if_pos hm]
      exact .claim hpc hm
    · rw [casSlot_of_ne hm, if_neg hm]
      exact .lost hpc hm
  | check0 =>
    cases h
    exact .check0 hpc
  | check1 =>
    cases h
    exact .check1 hpc
  | moveDir =>
    cases h
    cases hl : m.dir.locked with
    | true => exact .moveWait hpc
    | false => exact .moveDir hpc hl
  | move0 =>
    cases h
    exact .move0 hpc
  | move1 =>
    dsimp only at h
    split at h
    · cases h
      exact .full (.inr hpc)
    · rename_i q hq
      cases h
      exact .move1 hpc (Buf.firstEmpty_eq_some hq).1 (Buf.firstEmpty_eq_some hq).2
  | moveClaim q =>
    cases h
    by_cases hm : m.slot (c.addr hash q) = c.buf.slot q
    · rw [casSlot_of_eq hm, if_pos hm]
      exact .moveClaim hpc hm
    · rw [casSlot_of_ne hm, if_neg hm]
      exact .moveLost hpc hm
  | moveClear =>
    cases h
    exact .moveClear hpc
  | delete l =>
    cases l with
    | nil => cases h
    | cons q l =>
      cases h
      by_cases hm : m.slot (c.addr hash q) = c.buf.slot q
      · rw [casSlot_of_eq hm, if_pos hm]
        exact .clear hpc hm
      · rw [casSlot_of_ne hm, if_neg hm]
        exact .changed hpc hm

end Fusa.Table

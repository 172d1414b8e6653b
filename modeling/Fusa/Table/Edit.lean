import Fusa.Table.Content

/-! `RemoteHashTable::update` and `RemoteHashTable::rmw`, one remote operation at a time. A block
that `rmw` could not publish may be written again, so the reads of `read_block` are steps here. -/
namespace Fusa.Table

inductive Edit
  | update (value : Bytes)
  | rmw (transform : Bytes → Bytes)

def Edit.apply : Edit → Bytes → Bytes
  | .update value, _ => value
  | .rmw transform, old => transform old

def Edit.isUpdate : Edit → Bool
  | .update _ => true
  | .rmw _ => false

inductive EditPc
  | idle
  | read0
  | read1
  | checkDir
  | checkEntry
  | block (q : ℕ)
  | write (q : ℕ)
  | cas (q : ℕ)
  | ok
  | enoent
deriving DecidableEq, Repr

/-- The arguments and locals of a call and the buffers of its task. -/
structure EditCall where
  pc : EditPc
  key : Bytes
  edit : Edit
  value : Bytes
  newSlot : Slot
  dirCache : Directory
  base : ℕ
  buf : Buf
  entryIdx : ℕ

section
variable (hash : Bytes → Hashes)

namespace EditCall

variable (c : EditCall)

def update (key value : Bytes) (pointer : ℕ) : EditCall :=
  { c with pc := .read0, key := key, edit := .update value, value := value
           newSlot := blockSlot hash key value pointer }

def rmw (key : Bytes) (transform : Bytes → Bytes) : EditCall :=
  { c with pc := .read0, key := key, edit := .rmw transform }

def entry : SubTableEntry := c.dirCache.entry (hash c.key)

def addr (q : ℕ) : ℕ := posAddr c.base (hash c.key) q

def read (m : Memory) (r : ℕ) : Buf := readGroup m (c.entry hash).pointer (hash c.key) r c.buf

def candidate (q : ℕ) : Bool :=
  c.buf.slot q ≠ .null ∧ (c.buf.slot q).fp = getFingerprint (hash c.key).h0

def nextBlock (q : ℕ) : EditPc :=
  match positions.find? fun p => q ≤ p && c.candidate hash p with
  | none => .enoent
  | some q => .block q

def found : EditPc :=
  if (List.range 4).any fun i => stale (hash c.key) (c.entry hash) (c.buf.header i) then .checkDir
  else c.nextBlock hash 0

/-- `read_block` has accepted the block at position `q`, with the value `old`. -/
def accepted (q : ℕ) (old : Bytes) : EditCall :=
  match c.edit with
  | .update _ => { c with pc := .cas q }
  | .rmw transform => { c with value := transform old, pc := .write q }

/-- `write_block` of `rmw` into the block at `pointer`. -/
def write (q pointer : ℕ) : EditCall :=
  { c with newSlot := blockSlot hash c.key c.value pointer, pc := .cas q }

def owns : Bool :=
  match c.pc with
  | .idle | .ok | .enoent | .write _ => false
  | .cas _ => true
  | .read0 | .read1 | .checkDir | .checkEntry | .block _ => c.edit.isUpdate

end EditCall

/-- The memory and the blocks that are allocated and not freed. -/
structure Heap where
  mem : Memory
  live : ℕ → Bool

def editStep (h : Heap) (c : EditCall) : Option (Heap × EditCall) :=
  match c.pc with
  | .idle | .ok | .enoent | .write _ => none
  | .read0 =>
    some (h, { c with base := (c.entry hash).pointer, entryIdx := c.dirCache.index (hash c.key)
                      buf := c.read hash h.mem 0, pc := .read1 })
  | .read1 =>
    let c := { c with buf := c.read hash h.mem 1 }
    some (h, { c with pc := c.found hash })
  | .checkDir =>
    some (h, if h.mem.dir.locked then c else { c with dirCache := h.mem.dir, pc := .checkEntry })
  | .checkEntry =>
    let e := h.mem.dir.subtables c.entryIdx
    some (h, { c with dirCache := c.dirCache.setEntry c.entryIdx e
                      pc := if e.lock ≠ 0 then .checkEntry else .read0 })
  | .block q =>
    match (h.mem.block (c.buf.slot q).pointer).bind (readBlock c.key) with
    | some old => some (h, c.accepted q old)
    | none => some (h, { c with pc := c.nextBlock hash (q + 1) })
  | .cas q =>
    let old := h.mem.slot (c.addr hash q)
    let c' := { c with buf := c.buf.setSlot q old }
    if old = c.buf.slot q then
      some ({ h with mem := h.mem.casSlot (c.addr hash q) (c.buf.slot q) c.newSlot },
        { c' with pc := .ok })
    else
      match c.edit with
      | .update _ => some (h, { c' with pc := .read0 })
      | .rmw _ =>
        -- `free_memory` of the block that was not published
        some ({ h with live := Function.update h.live c.newSlot.pointer false },
          { c' with pc := .read0 })

inductive EditStep (h : Heap) (c : EditCall) : Heap → EditCall → Prop
  | read0 (hpc : c.pc = .read0) : EditStep h c h
      { c with base := (c.entry hash).pointer, entryIdx := c.dirCache.index (hash c.key)
               buf := c.read hash h.mem 0, pc := .read1 }
  | read1 (hpc : c.pc = .read1) : EditStep h c h
      { c with buf := c.read hash h.mem 1, pc := { c with buf := c.read hash h.mem 1 }.found hash }
  | check {c' : EditCall} (hpc : c.pc = .checkDir ∨ c.pc = .checkEntry) : EditStep h c h c'
  | accept {q : ℕ} {b : Block} {old : Bytes} (hpc : c.pc = .block q)
      (hb : h.mem.block (c.buf.slot q).pointer = some b) (hr : readBlock c.key b = some old) :
      EditStep h c h (c.accepted q old)
  | reject {q : ℕ} (hpc : c.pc = .block q)
      (hr : (h.mem.block (c.buf.slot q).pointer).bind (readBlock c.key) = none) :
      EditStep h c h { c with pc := c.nextBlock hash (q + 1) }
  | replaced {q : ℕ} (hpc : c.pc = .cas q)
      (hm : h.mem.slot (c.addr hash q) = c.buf.slot q) :
      EditStep h c { h with mem := { h.mem with
          slot := Function.update h.mem.slot (c.addr hash q) c.newSlot } }
        { c with buf := c.buf.setSlot q (h.mem.slot (c.addr hash q)), pc := .ok }
  | lostUpdate {q : ℕ} {value : Bytes} (hpc : c.pc = .cas q) (he : c.edit = .update value)
      (hm : h.mem.slot (c.addr hash q) ≠ c.buf.slot q) :
      EditStep h c h { c with buf := c.buf.setSlot q (h.mem.slot (c.addr hash q)), pc := .read0 }
  | lostRmw {q : ℕ} {transform : Bytes → Bytes} (hpc : c.pc = .cas q)
      (he : c.edit = .rmw transform) (hm : h.mem.slot (c.addr hash q) ≠ c.buf.slot q) :
      EditStep h c { h with live := Function.update h.live c.newSlot.pointer false }
        { c with buf := c.buf.setSlot q (h.mem.slot (c.addr hash q)), pc := .read0 }

end

variable {hash : Bytes → Hashes} {h h' : Heap} {c c' : EditCall} {q : ℕ}

theorem editStep_cases (hs : editStep hash h c = some (h', c')) : EditStep hash h c h' c' := by
  unfold editStep at hs
  generalize hpc : c.pc = pc at hs
  cases pc with
  | idle | ok | enoent | write => cases hs
  | read0 =>
    cases hs
    exact .read0 hpc
  | read1 =>
    cases hs
    exact .read1 hpc
  | checkDir =>
    cases hs
    exact .check (.inl hpc)
  | checkEntry =>
    cases hs
    exact .check (.inr hpc)
  | block q =>
    dsimp only at hs
    split at hs
    · rename_i old hold
      obtain ⟨b, hb, hr⟩ := Option.bind_eq_some_iff.mp hold
      cases hs
      exact .accept hpc hb hr
    · rename_i hnone
      cases hs
      exact .reject hpc hnone
  | cas q =>
    dsimp only at hs
    split at hs
    · rename_i hm
      cases hs
      rw [casSlot_of_eq hm]
      exact .replaced hpc hm
    · rename_i hm
      split at hs
      · rename_i he
        cases hs
        exact .lostUpdate hpc he hm
      · rename_i he
        cases hs
        exact .lostRmw hpc he hm

theorem EditCall.nextBlock_eq {n : ℕ} (hq : q < 28) (hc : c.candidate hash q) (hn : n ≤ q) :
    ∃ p, n ≤ p ∧ p ≤ q ∧ c.candidate hash p ∧ c.nextBlock hash n = .block p := by
  unfold EditCall.nextBlock
  cases hf : positions.find? fun p => n ≤ p && c.candidate hash p with
  | none =>
    have := List.find?_eq_none.mp hf q (mem_positions.mpr hq)
    simp [hn, hc] at this
  | some p =>
    obtain ⟨hp, -, hmin⟩ := List.find?_range_eq_some.mp hf
    simp only [Bool.and_eq_true, decide_eq_true_eq] at hp
    refine ⟨p, hp.1, ?_, hp.2, rfl⟩
    by_contra hlt
    have := hmin q (by omega)
    simp [hn, hc] at this

end Fusa.Table

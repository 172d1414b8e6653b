import Fusa.Agent.Accesses

/-! What the server relies on for each machine in the course of a round. -/
namespace Fusa.Agent
open Transition List

def Report.entryList (r : Report) (n : ℕ) : List (UInt64 × UInt64) :=
  (List.range n).map fun j => (r.counters j, r.cCounters j)

theorem Report.entryList_succ (r : Report) (n : ℕ) :
    r.entryList (n + 1) = r.entryList n ++ [(r.counters n, r.cCounters n)] := by
  simp [entryList, range_succ]

namespace History
variable {h h' : History} {k j : ℕ}

def ReadUpTo (h : History) (k : ℕ) : Prop :=
  k ≤ h.reports.length ∧ h.reads = (h.reports.take k).flatMap (·.entryList groupSize)

/-- The first `k` reports and the first `j` entries of the next were read. -/
def ReadInto (h : History) (k j : ℕ) : Prop :=
  ∃ r, h.reports[k]? = some r ∧
    h.reads = (h.reports.take k).flatMap (·.entryList groupSize) ++ r.entryList j

theorem ReadUpTo.mono (hr : h.ReadUpTo k) (hp : h.reports <+: h'.reports)
    (he : h'.reads = h.reads) : h'.ReadUpTo k := by
  obtain ⟨l, hl⟩ := hp
  constructor
  · rw [← hl, length_append]
    exact Nat.le_add_right_of_le hr.1
  · rw [he, hr.2, ← hl, take_append_of_le_length hr.1]

theorem ReadInto.lt (hr : h.ReadInto k j) : k < h.reports.length := by
  obtain ⟨r, hk, -⟩ := hr
  exact (List.getElem?_eq_some_iff.mp hk).1

theorem ReadInto.mono (hr : h.ReadInto k j) (hp : h.reports <+: h'.reports)
    (he : h'.reads = h.reads) : h'.ReadInto k j := by
  have hlt := hr.lt
  obtain ⟨r, hk, hrd⟩ := hr
  obtain ⟨l, hl⟩ := hp
  refine ⟨r, ?_, ?_⟩
  · rw [← hl, List.getElem?_append_left hlt, hk]
  · rw [he, hrd, ← hl, take_append_of_le_length hlt.le]

theorem ReadUpTo.readInto (hr : h.ReadUpTo k) (hk : k < h.reports.length) : h.ReadInto k 0 := by
  refine ⟨h.reports[k], List.getElem?_eq_getElem hk, ?_⟩
  rw [hr.2]
  simp [Report.entryList]

theorem ReadInto.readUpTo (hr : h.ReadInto k groupSize) : h.ReadUpTo (k + 1) := by
  have hlt := hr.lt
  obtain ⟨r, hk, hrd⟩ := hr
  constructor
  · exact hlt
  · rw [hrd, take_add_one, hk]
    simp

end History

namespace Machine
variable {m m' : Machine} {q j : ℕ}

def Idle (m : Machine) (q : ℕ) : Prop := m.hist.received = q ∧ m.hist.acked = q ∧ m.hist.ReadUpTo q

def Reading (m : Machine) (q j : ℕ) : Prop :=
  m.hist.received = q ∧ m.hist.acked = q ∧ m.hist.phases = q + 1 ∧ m.hist.ReadInto q j

def Waits (m : Machine) (q : ℕ) : Prop :=
  m.hist.received = q ∧ m.hist.acked = q ∧ m.hist.phases = q + 1 ∧ m.hist.ReadUpTo (q + 1)

def Sent (m : Machine) (q : ℕ) : Prop := m.hist.received = q + 1 ∧ m.hist.ReadUpTo (q + 1)

/-- A step the server takes no notice of. -/
structure Quiet (m m' : Machine) : Prop where
  phases : m'.hist.phases = m.hist.phases
  received : m'.hist.received = m.hist.received
  acked : m'.hist.acked = m.hist.acked
  reads : m'.hist.reads = m.hist.reads
  strategies : m'.strategies = m.strategies
  reports : m.hist.reports <+: m'.hist.reports

theorem quiet_clientStep {found : Report} (hn : m.clientStep found = some m') : m.Quiet m' := by
  obtain ⟨h1, h2, h3, h4, h5, h6⟩ := clientStep_frame hn
  exact ⟨h1, h2, h3, h4, h5, h6⟩

theorem quiet_of_hist (hh : m'.hist = m.hist) (hs : m'.strategies = m.strategies) : m.Quiet m' := by
  constructor <;> simp [hh, hs]

section
variable (h : m.Quiet m')
include h

theorem Quiet.idle (hi : m.Idle q) : m'.Idle q :=
  ⟨h.received.trans hi.1, h.acked.trans hi.2.1, hi.2.2.mono h.reports h.reads⟩

theorem Quiet.reading (hi : m.Reading q j) : m'.Reading q j :=
  ⟨h.received.trans hi.1, h.acked.trans hi.2.1, h.phases.trans hi.2.2.1,
    hi.2.2.2.mono h.reports h.reads⟩

theorem Quiet.waits (hi : m.Waits q) : m'.Waits q :=
  ⟨h.received.trans hi.1, h.acked.trans hi.2.1, h.phases.trans hi.2.2.1,
    hi.2.2.2.mono h.reports h.reads⟩

theorem Quiet.sent (hi : m.Sent q) : m'.Sent q :=
  ⟨h.received.trans hi.1, hi.2.mono h.reports h.reads⟩

end

theorem Inv.unitReport_of_phases (h : m.Inv) (hp : m.hist.phases = m.hist.received + 1) :
    m.hist.reports[m.hist.received]? = some m.unitReport := by
  have hc := h.counts
  have hl : m.hist.reports.length = m.hist.received + 1 := by omega
  have hne : m.hist.reports ≠ [] := by
    intro h0
    rw [h0] at hl
    simp at hl
  rw [h.unitReport (by omega) hne, ← h.mesg hne, List.getLast?_eq_getElem?, hl]
  rfl

theorem Reading.readEntry (h : m.Inv) (hr : m.Reading q j) : (m.readEntry j).Reading q (j + 1) := by
  obtain ⟨hg, ha, hp, r, hk, hrd⟩ := hr
  have hu := h.unitReport_of_phases (by omega)
  rw [hg, hk, Option.some.injEq] at hu
  refine ⟨hg, ha, hp, r, hk, ?_⟩
  show m.hist.reads ++ _ = (m.hist.reports.take q).flatMap _ ++ _
  rw [hrd, Report.entryList_succ, ← append_assoc, hu]

end Machine

namespace ServerPc

/-- What the server can rely on for machine `i` in round `q`. -/
def Sees (q i : ℕ) (scanned pending : Bool) (m : Machine) : ServerPc → Prop
  | .check _ => pending = false ∧ if scanned then m.Waits q else m.Idle q
  | .read k j => pending = false ∧
      if i = k then scanned = true ∧ j < groupSize ∧ m.Reading q j
      else if scanned then m.Waits q else m.Idle q
  | .publish _ | .store _ _ | .uniformPhase | .snapshot => pending = false ∧ m.Waits q
  | .post k => scanned = false ∧
      if pending then i < k ∧ m.Waits q else if k ≤ i then m.Waits q else m.Sent q
  | .poll k => scanned = false ∧ if pending then k ≤ i ∧ m.Waits q else m.Sent q
  | .testChanged | .testTurn => scanned = false ∧ pending = false ∧ m.Sent q

variable {q i : ℕ} {scanned pending : Bool} {m m' : Machine} {pc : ServerPc}

theorem Sees.imp (hi : m.Idle q → m'.Idle q) (hr : ∀ j, m.Reading q j → m'.Reading q j)
    (hw : m.Waits q → m'.Waits q) (hs : m.Sent q → m'.Sent q)
    (h : pc.Sees q i scanned pending m) : pc.Sees q i scanned pending m' := by
  cases pc <;> simp only [Sees] at h ⊢ <;> grind

theorem Sees.quiet (hq : m.Quiet m') (h : pc.Sees q i scanned pending m) :
    pc.Sees q i scanned pending m' :=
  h.imp hq.idle (fun _ => hq.reading) hq.waits hq.sent

theorem Sees.faaPhase (hp : m.hist.phases = m.hist.received)
    (hh : m'.hist = { m.hist with phases := m.hist.phases + 1 })
    (h : pc.Sees q i scanned pending m) : pc.Sees q i scanned pending m' := by
  apply h.imp
  · unfold Machine.Idle
    rw [hh]
    exact id
  · intro j hr
    have := hr.1
    have := hr.2.2.1
    omega
  · intro hw
    have := hw.1
    have := hw.2.2.1
    omega
  · unfold Machine.Sent
    rw [hh]
    exact id

theorem Sees.faaConsensus (hp : m.hist.acked + 1 = m.hist.received)
    (hh : m'.hist = { m.hist with acked := m.hist.acked + 1 })
    (h : pc.Sees q i scanned pending m) : pc.Sees q i scanned pending m' := by
  apply h.imp
  · intro hi
    have := hi.1
    have := hi.2.1
    omega
  · intro j hr
    have := hr.1
    have := hr.2.1
    omega
  · intro hw
    have := hw.1
    have := hw.2.1
    omega
  · unfold Machine.Sent
    rw [hh]
    exact id

theorem Sees.waits (h : pc.Sees q i scanned true m) : m.Waits q := by
  cases pc <;> simp_all [Sees]

theorem Sees.receive (h : pc.Sees q i scanned true m) (hs : m'.Sent q) :
    pc.Sees q i scanned false m' := by
  cases pc <;> simp_all [Sees]

def made : ServerPc → Bool
  | .check _ | .read _ _ => false
  | _ => true

def bumped : ServerPc → Bool
  | .check _ | .read _ _ | .publish _ | .store _ _ => false
  | _ => true

def ready : ServerPc → Bool
  | .snapshot | .post _ | .poll _ | .testChanged | .testTurn => true
  | _ => false

def posting : ServerPc → Bool
  | .post _ | .poll _ | .testChanged | .testTurn => true
  | _ => false

def making : ServerPc → Bool
  | .publish _ | .store _ _ | .uniformPhase | .snapshot => true
  | _ => false

theorem bumped_of_not_made (h : pc.made = false) :
    pc.bumped = false ∧ pc.posting = false ∧ pc.ready = false ∧ pc ≠ .testTurn := by
  cases pc <;> simp_all [made, bumped, posting, ready]

theorem made_of_making (h : pc.making = true) :
    pc.made = true ∧ pc.posting = false ∧ pc ≠ .testTurn ∧ ∀ k j, pc ≠ .read k j := by
  cases pc <;> simp_all [making, made, posting]

theorem sees_of_making (h : pc.making = true) :
    pc.Sees q i scanned pending m ↔ pending = false ∧ m.Waits q := by
  cases pc <;> simp_all [making, Sees]

theorem made_of_posting (h : pc.posting = true) :
    pc.made = true ∧ pc.bumped = true ∧ pc.ready = true ∧ ∀ k j, pc ≠ .read k j := by
  cases pc <;> simp_all [posting, made, bumped, ready]

/-- The machines whose scan has begun, besides those it is over for. -/
def reading (i : ℕ) : ServerPc → Bool
  | .read k _ => i = k
  | _ => false

theorem Sees.posting (h : pc.Sees q i scanned true m) :
    pc.posting = true ∧ pc.ready = true ∧ pc.bumped = true ∧ pc.made = true := by
  cases pc <;> simp_all [Sees, ServerPc.posting, ready, bumped, made]

end ServerPc

end Fusa.Agent

import Fusa.Driver.SetterFrame
import Fusa.Lib.Transition

/-! Batches of the `ibv_wr` functions over the life of a send queue: which WQEs are committed, and
which calls leave their bytes alone. -/
namespace Fusa.Driver.Sq
open Bytes Transition Option

/-- A committed WQE: its `cur_post`, its building blocks, and its bytes at the commit. -/
structure Wqe where
  pos : ℕ
  bbs : ℕ
  bytes : List UInt8

/-- `live` are WQEs committed and not completed, `ready` those the open batch has completed; `own`
says that it has got one, `needData` and `needAddr` which setters the last one still needs. -/
structure Batch where
  x : Ex
  live : List Wqe
  before : Option Qp
  ready : List (ℕ × ℕ)
  own : Bool
  needData : Bool
  needAddr : Bool

inductive Call
  | start
  | build (wrId : UInt64) (flags : SendFlags) (b : Builder)
  | set (s : Setter)
  | complete
  | abort
  | poll (n : ℕ)

section
variable (cfg : Cfg) (ram : Ram)

def wqeBytes (m : Mem) (pos bbs : ℕ) : List UInt8 :=
  slice (view m cfg.qend (cfg.slot pos)) 0 (64 * bbs)

namespace Batch

/-- A call that moved `cur_post` has completed a WQE. -/
def note (x x' : Ex) (ready : List (ℕ × ℕ)) : List (ℕ × ℕ) :=
  if x'.qp.curPost = x.qp.curPost then ready
  else ready ++ [(x.qp.curPost, x'.qp.curPost - x.qp.curPost)]

def commit (m : Mem) (w : ℕ × ℕ) : Wqe := ⟨w.1, w.2, wqeBytes cfg m w.1 w.2⟩

/-- A completion for the WQE at `pos`: `wq->tail = wq->wqe_head[idx] + 1`. -/
def retire (pos : ℕ) (x : Ex) : Ex :=
  { x with qp := { x.qp with tail := x.qp.wqeHead (pos % cfg.wqeCnt) + 1 } }

/-- One call; those that the type of the queue pair does not have are no steps. -/
def next (s : Batch) : Call → Option Batch
  | .start =>
    if s.before.isNone then
      some { s with
        x := s.x.start, before := some s.x.qp, ready := []
        own := false, needData := false, needAddr := false }
    else none
  | .build wrId flags b =>
    if s.before.isSome ∧ cfg.qpType.builds b.opcode then
      let x := s.x.build cfg wrId flags b
      let takes := b.takes cfg flags
      some { s with
        x, ready := note s.x x s.ready
        own := s.own || !wqOverflow cfg s.x.qp s.x.nreq
        needData := takes
        needAddr := takes && cfg.qpType.twoSetters }
    else none
  | .set st =>
    if s.before.isSome ∧ cfg.qpType.sets st then
      let x := s.x.set cfg ram st
      some { s with
        x, ready := note s.x x s.ready
        needData := s.needData && st.isAddr
        needAddr := s.needAddr && !st.isAddr }
    else none
  | .complete =>
    if s.before.isSome then
      let (x, e) := s.x.complete cfg
      let live := if e = none then s.live ++ s.ready.map (commit cfg x.qp.mem) else s.live
      some { s with x, live, before := none }
    else none
  | .abort => if s.before.isSome then some { s with x := s.x.abort, before := none } else none
  | .poll n => do
    let w ← s.live[n]?
    some { s with x := retire cfg w.pos s.x, live := s.live.drop (n + 1) }

structure Idle (s : Batch) : Prop where
  live : s.live = []
  before : s.before = none
  tail : s.x.qp.head = s.x.qp.tail
  curEth : s.x.curEth = none

def system : System Batch Call := ⟨Idle, next cfg ram⟩

def Intact (s : Batch) : Prop := ∀ w ∈ s.live, wqeBytes cfg s.x.qp.mem w.pos w.bbs = w.bytes
deriving Decidable

/-- A batch that failed or was aborted is gone from the queue pair. -/
structure RolledBack (qp qp' : Qp) : Prop where
  curPost : qp'.curPost = qp.curPost
  head : qp'.head = qp.head
  fmCache : qp'.fmCache = qp.fmCache
  db : qp'.db = qp.db
  reg : qp'.reg = qp.reg

def Undoable (s : Batch) : Prop :=
  ∀ qp ∈ s.before, RolledBack qp s.x.abort.qp ∧
    (s.x.err ≠ none → RolledBack qp (s.x.complete cfg).1.qp)

/-- Builders are for requested operations and find room, setters come where they are needed. -/
def Orderly (ops : Opcode → Bool) (s : Batch) : Call → Prop
  | .build _ _ b => ops b.opcode = true ∧ s.x.nreq + 1 < 2 ^ 31 ∧
      (s.own = true ∨ wqOverflow cfg s.x.qp s.x.nreq = false)
  | .set st => if st.isAddr then s.needAddr = true else s.needData = true
  | _ => True

end Batch
end

section
variable {cfg : Cfg} {ram : Ram} {x x' : Ex}

namespace Ex

/-- What neither a builder nor a setter changes. -/
def books (x : Ex) : ℕ × UInt8 × UInt32 × UInt32 × ℕ × List (ℕ × List UInt8) :=
  (x.curPostRb, x.fmCacheRb, x.qp.head, x.qp.tail, x.qp.db, x.qp.reg)

theorem books_segments (flags : SendFlags) (b : Builder) :
    (segments cfg flags b x).books = x.books := by
  have humr (k k' : UInt32) (info : BindInfo) :
      (buildUmrWqe cfg k k' info x).books = x.books := by
    unfold buildUmrWqe
    cases h : setBindWr cfg .type2 k' info (umrStart (x.setImm k)) <;> simp only [h] <;> rfl
  cases b with
  | send =>
    simp only [segments, sendWrSendEth]
    split_ifs <;> rfl
  | bindMw k k' info => exact humr k k' info
  | localInv k => exact humr k 0 .zero
  | sendImm | sendInv | rdmaWrite | rdmaWriteImm | rdmaRead | atomicCmpSwp | atomicFetchAdd => rfl

theorem books_build (cfg : Cfg) (x : Ex) (wrId : UInt64) (flags : SendFlags) (b : Builder) :
    (x.build cfg wrId flags b).books = x.books := by
  rw [build, books_segments]
  unfold commonWqeInit
  split <;> rfl

/-- What a setter does to the rest: it forgets no error. -/
structure Follows (x y : Ex) : Prop where
  books : y.books = x.books
  eth : y.curEth = x.curEth
  err : y.err = none → x.err = none

theorem Follows.trans {y z : Ex} (h : Follows x y) (h' : Follows y z) : Follows x z :=
  ⟨h'.books.trans h.books, h'.eth.trans h.eth, fun he => h.err (h'.err he)⟩

theorem follows_fail {m : Mem} {e : Errno} : Follows x ((x.setMem m).fail e) :=
  ⟨rfl, rfl, fun h => absurd h fail_ne_none⟩

theorem follows_setSge (lkey : UInt32) (addr : UInt64) (length : UInt32) :
    Follows x (setSge lkey addr length x) := by
  unfold setSge
  split <;> exact ⟨rfl, rfl, id⟩

theorem follows_setInlineData (addr : UInt64) (length : ℕ) :
    Follows x (setInlineData cfg ram addr length x) := by
  unfold setInlineData
  split_ifs
  · exact follows_fail
  · exact ⟨rfl, rfl, id⟩
  · exact ⟨rfl, rfl, id⟩

theorem follows_gatherInline (e : Errno) (bs : List DataBuf) (p : SgCopyPtr) :
    Follows x (gatherInline cfg ram e bs p x).1 := by
  unfold gatherInline
  rcases bufLoop cfg ram (bs.drop p.index) p.offset x.qp.mem (x.curData + 4) 0 with ⟨m, _ | n⟩
  · exact follows_fail
  · simp only
    split_ifs <;> exact ⟨rfl, rfl, id⟩

theorem follows_setCore (s : Setter) : Follows x (setCore cfg ram s x) := by
  cases s with
  | sge lkey addr length => exact follows_setSge lkey addr length
  | sgeList sgs =>
    simp only [setCore, setSgeList]
    split
    · exact follows_fail
    · exact ⟨rfl, rfl, id⟩
  | inlineData addr length => exact follows_setInlineData addr length
  | inlineDataList bs => exact follows_gatherInline .enomem bs ⟨0, 0⟩
  | udAddr | xrcSrqn | dcAddr => exact ⟨rfl, rfl, id⟩

theorem header_cases (cfg : Cfg) (ram : Ram) (bs : List DataBuf) (x : Ex) :
    (∃ m e, header cfg ram bs x = .error ((x.setMem m).fail e)) ∨
      ∃ m p, header cfg ram bs x = .ok (x.setMem m, p) := by
  unfold header
  split
  · exact .inr ⟨_, _, rfl⟩
  · split
    · exact .inl ⟨_, _, rfl⟩
    · exact .inr ⟨_, _, rfl⟩

theorem follows_setEth (s : Setter) : Follows x (setEth cfg ram s x) := by
  have hmem {m : Mem} : Follows x (x.setMem m) := ⟨rfl, rfl, id⟩
  have hend {y : Ex} (h : Follows x y) : Follows x (commonWqeFinalize cfg y) :=
    ⟨h.books, h.eth, h.err⟩
  cases s with
  | sge lkey addr length =>
    obtain ⟨m, e, hh⟩ | ⟨m, p, hh⟩ := header_cases cfg ram [⟨addr, length.toNat⟩] x <;>
      simp only [setEth, setSgeEth, hh]
    · exact follows_fail
    · exact hend (hmem.trans (follows_setSge _ _ _))
  | sgeList sgs =>
    simp only [setEth, setSgeListEth]
    split
    · exact follows_fail
    · obtain ⟨m, e, hh⟩ | ⟨m, p, hh⟩ := header_cases cfg ram (sgs.map Sge.buf) x <;> simp only [hh]
      · exact follows_fail
      · exact ⟨rfl, rfl, id⟩
  | inlineData addr length =>
    obtain ⟨m, e, hh⟩ | ⟨m, p, hh⟩ := header_cases cfg ram [⟨addr, length⟩] x <;>
      simp only [setEth, setInlineDataEth, hh]
    · exact follows_fail
    · exact hend (hmem.trans (follows_setInlineData _ _))
  | inlineDataList bs =>
    obtain ⟨m, e, hh⟩ | ⟨m, p, hh⟩ := header_cases cfg ram bs x <;>
      simp only [setEth, setInlineDataListEth, hh]
    · exact follows_fail
    · have hg : Follows x (gatherInline cfg ram .einval bs p (x.setMem m)).1 :=
        hmem.trans (follows_gatherInline _ _ _)
      split
      · exact hend hg
      · exact hg
  | udAddr | xrcSrqn | dcAddr => exact ⟨rfl, rfl, id⟩

theorem books_set (cfg : Cfg) (ram : Ram) (x : Ex) (s : Setter) :
    (x.set cfg ram s).books = x.books := by
  unfold set
  split
  · exact (follows_setEth s).books
  · have hcore : Follows x (setCore cfg ram s x) := follows_setCore s
    rw [← hcore.books]
    unfold setterEnd
    split_ifs <;> rfl

end Ex

namespace Batch
variable {s t : Batch} {a : Call}

def Recorded (s : Batch) : Prop :=
  ∀ qp ∈ s.before, s.x.curPostRb = qp.curPost ∧ s.x.fmCacheRb = qp.fmCache ∧
    s.x.qp.head = qp.head ∧ s.x.qp.db = qp.db ∧ s.x.qp.reg = qp.reg

theorem Recorded.of_books (h : Recorded s) (hb : t.before = s.before)
    (hx : t.x.books = s.x.books) : Recorded t := by
  intro qp hqp
  simp only [Ex.books, Prod.mk.injEq] at hx
  obtain ⟨h₁, h₂, h₃, -, h₄, h₅⟩ := hx
  rw [h₁, h₂, h₃, h₄, h₅]
  exact h qp (hb ▸ hqp)

theorem Recorded.next (h : Recorded s) (hn : next cfg ram s a = some t) : Recorded t := by
  have hnone {t : Batch} (ht : t.before = none) : Recorded t := fun qp hqp => by
    rw [ht] at hqp
    cases hqp
  cases a with
  | start =>
    obtain ⟨-, ⟨⟩⟩ := ite_none_right_eq_some.mp hn
    rintro qp hqp
    cases hqp
    exact ⟨rfl, rfl, rfl, rfl, rfl⟩
  | build wrId flags b =>
    obtain ⟨-, ⟨⟩⟩ := ite_none_right_eq_some.mp hn
    exact h.of_books rfl (Ex.books_build cfg s.x wrId flags b)
  | set st =>
    obtain ⟨-, ⟨⟩⟩ := ite_none_right_eq_some.mp hn
    exact h.of_books rfl (Ex.books_set cfg ram s.x st)
  | complete =>
    simp only [Batch.next] at hn
    split_ifs at hn <;>
    · cases hn
      exact hnone rfl
  | abort =>
    obtain ⟨-, ⟨⟩⟩ := ite_none_right_eq_some.mp hn
    exact hnone rfl
  | poll n =>
    obtain ⟨w, -, hw⟩ := bind_eq_some_iff.mp hn
    cases hw
    exact h

theorem Recorded.undoable (h : Recorded s) : Undoable cfg s := by
  intro qp hqp
  obtain ⟨hpost, hfm, hhead, hdb, hreg⟩ := h qp hqp
  have hback : RolledBack qp s.x.rollBack.qp := ⟨hpost, hhead, hfm, hdb, hreg⟩
  refine ⟨hback, fun herr => ?_⟩
  obtain ⟨e, he⟩ := ne_none_iff_exists'.mp herr
  simp only [Ex.complete, he]
  exact hback

theorem undoable_of_reachable (h : (system cfg ram).Reachable s) : Undoable cfg s := by
  have hrec : Recorded s := by
    refine h.invariant (fun s hs => ?_) fun s a t hp hn => hp.next hn
    intro qp hqp
    rw [hs.before] at hqp
    cases hqp
  exact hrec.undoable

end Batch

end

end Fusa.Driver.Sq

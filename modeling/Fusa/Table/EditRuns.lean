import Fusa.Lib.Transition
import Fusa.Table.Edit

/-! Any number of clients that call `update` and `rmw` on one key. -/
namespace Fusa.Table.Edits
open Transition Function

/-- `log` has the calls that returned 0, in the order of their successful CASes. -/
structure State where
  heap : Heap
  calls : ℕ → EditCall
  log : List Edit

/-- A client calls `update` or `rmw`, `rmw` writes its block, or a call takes its next step. -/
inductive Action
  | update (c : ℕ) (value : Bytes) (pointer : ℕ)
  | rmw (c : ℕ) (transform : Bytes → Bytes)
  | write (c pointer : ℕ)
  | step (c : ℕ)

def done : EditPc → Bool
  | .idle | .ok | .enoent => true
  | _ => false

/-- `write_block` into the block at `pointer`, which `alloc_memory` has returned. -/
def alloc (h : Heap) (key value : Bytes) (pointer : ℕ) : Heap where
  mem := h.mem.writeBlock key value pointer
  live := update h.live pointer true

section
variable (hash : Bytes → Hashes) (key : Bytes)

def next (s : State) : Action → Option State
  | .update c value pointer =>
    if done (s.calls c).pc ∧ pointer ≠ 0 then
      some { s with
        heap := alloc s.heap key value pointer
        calls := update s.calls c ((s.calls c).update hash key value pointer) }
    else none
  | .rmw c transform =>
    if done (s.calls c).pc then
      some { s with calls := update s.calls c ((s.calls c).rmw key transform) }
    else none
  | .write c pointer =>
    match (s.calls c).pc with
    | .write q =>
      if pointer ≠ 0 then
        some { s with
          heap := alloc s.heap key (s.calls c).value pointer
          calls := update s.calls c ((s.calls c).write hash q pointer) }
      else none
    | _ => none
  | .step c =>
    (editStep hash s.heap (s.calls c)).map fun r =>
      { s with
        heap := r.1
        calls := update s.calls c r.2
        log := if r.2.pc = .ok then s.log ++ [r.2.edit] else s.log }

def system (m₀ : Memory) : System State Action where
  start s := s.heap.mem = m₀ ∧ (∀ a, m₀.slot a ≠ .null → s.heap.live (m₀.slot a).pointer) ∧
    (∀ c, (s.calls c).pc = .idle ∧ (s.calls c).dirCache = m₀.dir) ∧ s.log = []
  next := next hash key

def applied (log : List Edit) (v₀ : Bytes) : Bytes := log.foldl (fun v e => e.apply v) v₀

/-- `search` finds what the successful calls leave, each applied to what the one before left. -/
def NoLostUpdate (v₀ : Bytes) (s : State) : Prop :=
  search hash s.heap.mem s.heap.mem.dir key = some (applied s.log v₀)

/-- `alloc_memory` returns no block that is in use. -/
def Fresh (s : State) : Action → Prop
  | .update _ _ pointer | .write _ pointer => s.heap.live pointer = false
  | .rmw .. | .step _ => True

def Stores : Action → Prop
  | .update _ value _ => Storable key value
  | .rmw _ transform => ∀ value, Storable key value → Storable key (transform value)
  | .write .. | .step _ => True

def Rely (s : State) (a : Action) : Prop := Fresh s a ∧ Stores key a

/-! ### What holds along a run -/

variable (m₀ : Memory) (q₀ : ℕ) (v₀ : Bytes)

def home (q : ℕ) : ℕ := posAddr (m₀.dir.entry (hash key)).pointer (hash key) q

def Shared (s : State) (p : ℕ) : Prop :=
  s.heap.live p = true ∧ ∀ c, (s.calls c).owns → (s.calls c).newSlot.pointer ≠ p

def Published (s : State) (w : Slot) : Prop :=
  matchesKey s.heap.mem.block (hash key) key w ∧ Shared s w.pointer ∧
    ∃ old, (s.heap.mem.block w.pointer).bind (readBlock key) = some old ∧ Storable key old

/-- What a client may read at position `q`: only the slot of the key changes. -/
def Word (s : State) (q : ℕ) (w : Slot) : Prop :=
  if home hash key m₀ q = home hash key m₀ q₀ then Published hash key s w
  else w = m₀.slot (home hash key m₀ q)

/-- The value of `rmw` comes from the block that its CAS expects. -/
def Computed (s : State) (c : EditCall) : Prop :=
  ∀ f, c.edit = .rmw f → ∃ old, c.value = f old ∧
    (s.heap.mem.block (c.buf.slot q₀).pointer).bind (readBlock key) = some old

def AtPc (s : State) (c : EditCall) : EditPc → Prop
  | .idle | .ok | .read0 => True
  | .read1 => c.base = (m₀.dir.entry (hash key)).pointer ∧
      (∀ q < 28, posGroup q = 0 → Word hash key m₀ q₀ s q (c.buf.slot q)) ∧
      ∀ i, i % 2 = 0 → c.buf.header i =
        m₀.header (bucketAddr (m₀.dir.entry (hash key)).pointer (bucketNo (hash key) i))
  | .checkDir | .checkEntry | .enoent => False
  | .block q => (q ≤ q₀ ∧ c.candidate hash q) ∧ c.base = (m₀.dir.entry (hash key)).pointer ∧
      ∀ q < 28, Word hash key m₀ q₀ s q (c.buf.slot q)
  | .write q => q = q₀ ∧ c.base = (m₀.dir.entry (hash key)).pointer ∧
      (∀ q < 28, Word hash key m₀ q₀ s q (c.buf.slot q)) ∧ Computed key q₀ s c ∧
      ∃ f, c.edit = .rmw f
  | .cas q => q = q₀ ∧ c.base = (m₀.dir.entry (hash key)).pointer ∧
      (∀ q < 28, Word hash key m₀ q₀ s q (c.buf.slot q)) ∧ Computed key q₀ s c

def Args (c : EditCall) : Prop :=
  match c.edit with
  | .update value => c.value = value ∧ Storable key value
  | .rmw transform => ∀ value, Storable key value → Storable key (transform value)

structure CallInv (s : State) (c : EditCall) : Prop where
  dir : c.dirCache = m₀.dir
  args : done c.pc = false → c.key = key ∧ Args key c
  block : c.owns → s.heap.live c.newSlot.pointer = true ∧ c.newSlot ≠ .null ∧
    c.newSlot.fp = getFingerprint (hash key).h0 ∧
    s.heap.mem.block c.newSlot.pointer = some ⟨key, c.value⟩
  at_pc : AtPc hash key m₀ q₀ s c c.pc

structure Inv (s : State) : Prop where
  dir : s.heap.mem.dir = m₀.dir
  header : s.heap.mem.header = m₀.header
  other : ∀ y, y ≠ home hash key m₀ q₀ → s.heap.mem.slot y = m₀.slot y
  slot : Published hash key s (s.heap.mem.slot (home hash key m₀ q₀))
  value : (s.heap.mem.block (s.heap.mem.slot (home hash key m₀ q₀)).pointer).bind
    (readBlock key) = some (applied s.log v₀)
  old : ∀ y, m₀.slot y ≠ .null → Shared s (m₀.slot y).pointer ∧
    s.heap.mem.block (m₀.slot y).pointer = m₀.block (m₀.slot y).pointer
  owned : ∀ c d, (s.calls c).owns → (s.calls d).owns →
    (s.calls c).newSlot.pointer = (s.calls d).newSlot.pointer → c = d
  call : ∀ c, CallInv hash key m₀ q₀ s (s.calls c)

end

variable {hash : Bytes → Hashes} {key v₀ : Bytes} {m₀ : Memory} {q₀ c : ℕ} {s t : State}
  {w : Slot} {q : ℕ}

def Keeps (s t : State) : Prop :=
  ∀ p, Shared s p → Shared t p ∧ t.heap.mem.block p = s.heap.mem.block p

/-- A step of client `c`, as the blocks of the others see it. -/
structure Frame (c : ℕ) (s t : State) : Prop where
  calls : ∀ d, d ≠ c → t.calls d = s.calls d
  heap : ∀ p, s.heap.live p = true → ((s.calls c).owns → (s.calls c).newSlot.pointer ≠ p) →
    t.heap.live p = true ∧ t.heap.mem.block p = s.heap.mem.block p
  own : (t.calls c).owns → ((s.calls c).owns ∧ (t.calls c).newSlot = (s.calls c).newSlot) ∨
    s.heap.live (t.calls c).newSlot.pointer = false

theorem Frame.keeps (h : Frame c s t) : Keeps s t := by
  intro p hp
  obtain ⟨hlive, hblock⟩ := h.heap p hp.1 (hp.2 c)
  refine ⟨⟨hlive, fun d hd => ?_⟩, hblock⟩
  by_cases hdc : d = c
  · subst hdc
    rcases h.own hd with ⟨ho, hs⟩ | hf
    · rw [hs]
      exact hp.2 d ho
    · rintro rfl
      exact absurd (hp.1.symm.trans hf) (by decide)
  · rw [h.calls d hdc] at hd ⊢
    exact hp.2 d hd

theorem Published.mono (h : Published hash key s w) (hk : Keeps s t) : Published hash key t w := by
  obtain ⟨hm, hs, old, hold, hst⟩ := h
  obtain ⟨hs', hb⟩ := hk _ hs
  refine ⟨?_, hs', old, ?_, hst⟩
  · simpa only [matchesKey, hb] using hm
  · rwa [hb]

theorem Word.mono (h : Word hash key m₀ q₀ s q w) (hk : Keeps s t) : Word hash key m₀ q₀ t q w := by
  unfold Word at h ⊢
  split
  · rename_i hq
    rw [if_pos hq] at h
    exact h.mono hk
  · rename_i hq
    rwa [if_neg hq] at h

theorem Word.published (h : Word hash key m₀ q₀ s q₀ w) : Published hash key s w := by
  unfold Word at h
  rwa [if_pos rfl] at h

theorem Computed.mono {c : EditCall} (h : Computed key q₀ s c) (hk : Keeps s t)
    (hw : Published hash key s (c.buf.slot q₀)) : Computed key q₀ t c := by
  intro f hf
  obtain ⟨old, hv, hold⟩ := h f hf
  refine ⟨old, hv, ?_⟩
  rwa [(hk _ hw.2.1).2]

theorem AtPc.mono {c : EditCall} {pc : EditPc} (hq₀ : q₀ < 28)
    (h : AtPc hash key m₀ q₀ s c pc) (hk : Keeps s t) : AtPc hash key m₀ q₀ t c pc := by
  cases pc with
  | idle | ok | read0 => trivial
  | checkDir | checkEntry | enoent => exact h
  | read1 => exact ⟨h.1, fun q hq hg => (h.2.1 q hq hg).mono hk, h.2.2⟩
  | block q => exact ⟨h.1, h.2.1, fun q hq => (h.2.2 q hq).mono hk⟩
  | write q =>
    exact ⟨h.1, h.2.1, fun q hq => (h.2.2.1 q hq).mono hk,
      h.2.2.2.1.mono hk (h.2.2.1 q₀ hq₀).published, h.2.2.2.2⟩
  | cas q =>
    exact ⟨h.1, h.2.1, fun q hq => (h.2.2.1 q hq).mono hk,
      h.2.2.2.mono hk (h.2.2.1 q₀ hq₀).published⟩

theorem Inv.others (hq₀ : q₀ < 28) (h : Inv hash key m₀ q₀ v₀ s) (hf : Frame c s t) {d : ℕ}
    (hd : d ≠ c) : CallInv hash key m₀ q₀ t (t.calls d) := by
  rw [hf.calls d hd]
  refine ⟨(h.call d).dir, (h.call d).args, fun ho => ?_, (h.call d).at_pc.mono hq₀ hf.keeps⟩
  obtain ⟨hlive, hne, hfp, hb⟩ := (h.call d).block ho
  obtain ⟨hlive', hb'⟩ := hf.heap _ hlive fun hc hp => hd (h.owned d c ho hc hp.symm)
  exact ⟨hlive', hne, hfp, hb'.trans hb⟩

theorem Inv.owned_step (h : Inv hash key m₀ q₀ v₀ s) (hf : Frame c s t) (d e : ℕ)
    (hd : (t.calls d).owns) (he : (t.calls e).owns)
    (hp : (t.calls d).newSlot.pointer = (t.calls e).newSlot.pointer) : d = e := by
  have hone : ∀ d, d ≠ c → (t.calls d).owns →
      (t.calls d).newSlot.pointer ≠ (t.calls c).newSlot.pointer ∨ ¬ (t.calls c).owns := by
    intro d hdc hd
    by_cases hc : (t.calls c).owns
    · refine .inl fun hp => ?_
      rw [hf.calls d hdc] at hd hp
      rcases hf.own hc with ⟨ho, hs⟩ | hfresh
      · exact hdc (h.owned d c hd ho (hp.trans (congrArg Slot.pointer hs)))
      · rw [← hp, ((h.call d).block hd).1] at hfresh
        cases hfresh
    · exact .inr hc
  by_cases hdc : d = c <;> by_cases hec : e = c
  · rw [hdc, hec]
  · subst hdc
    rcases hone e hec he with hne | hno
    · exact absurd hp.symm hne
    · exact absurd hd hno
  · subst hec
    rcases hone d hdc hd with hne | hno
    · exact absurd hp hne
    · exact absurd he hno
  · rw [hf.calls d hdc] at hd hp
    rw [hf.calls e hec] at he hp
    exact h.owned d e hd he hp

theorem Inv.of_frame (hq₀ : q₀ < 28) (h : Inv hash key m₀ q₀ v₀ s) (hf : Frame c s t)
    (hdir : t.heap.mem.dir = s.heap.mem.dir) (hheader : t.heap.mem.header = s.heap.mem.header)
    (hslot : t.heap.mem.slot = s.heap.mem.slot) (hlog : t.log = s.log)
    (hcall : CallInv hash key m₀ q₀ t (t.calls c)) : Inv hash key m₀ q₀ v₀ t := by
  refine ⟨hdir.trans h.dir, hheader.trans h.header, fun y hy => ?_, ?_, ?_, fun y hy => ?_,
    h.owned_step hf, fun d => ?_⟩
  · rw [hslot]
    exact h.other y hy
  · rw [hslot]
    exact h.slot.mono hf.keeps
  · rw [hslot, hlog, (hf.keeps _ h.slot.2.1).2]
    exact h.value
  · obtain ⟨hs, hb⟩ := h.old y hy
    exact ⟨(hf.keeps _ hs).1, (hf.keeps _ hs).2.trans hb⟩
  · by_cases hd : d = c
    · exact hd ▸ hcall
    · exact h.others hq₀ hf hd

theorem Inv.storable (h : Inv hash key m₀ q₀ v₀ s) : Storable key (applied s.log v₀) := by
  obtain ⟨-, -, old, hold, hst⟩ := h.slot
  rw [h.value, Option.some.injEq] at hold
  rwa [hold]

end Fusa.Table.Edits

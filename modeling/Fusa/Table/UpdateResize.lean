import Fusa.Table.MovingKey

/-! Updates and removes by any number of clients while one `resize` splits their subtable. -/
namespace Fusa.Table.UpdateResize
open Transition Function Option

/-- `last` is the value of a key's last `update` that returned 0, unless a `remove` did after it. -/
structure State where
  mem : Memory
  resizer : Resizer
  calls : ℕ → ModifyCall
  last : Bytes → Option (Option Bytes)

/-- A client calls `update` or `remove`, or a call or the resize takes its next step. -/
inductive Action
  | update (c : ℕ) (key value : Bytes) (pointer : ℕ)
  | remove (c : ℕ) (key : Bytes)
  | step (c : ℕ)
  | resize

def done : ModifyPc → Bool
  | .idle | .ok | .enoent => true
  | _ => false

section
variable (x : Split) (hash : Bytes → Hashes) (K : Bytes → Prop) (alloc : ℕ → ℕ)

def next (s : State) : Action → Option State
  | .update c key value pointer =>
    if done (s.calls c).pc ∧ pointer ≠ 0 ∧ s.mem.block pointer = none then
      some { s with
        mem := s.mem.writeBlock key value pointer
        calls := update s.calls c ((s.calls c).update hash key value pointer) }
    else none
  | .remove c key =>
    if done (s.calls c).pc then
      some { s with calls := update s.calls c ((s.calls c).remove key) }
    else none
  | .step c =>
    (modifyStep hash s.mem (s.calls c)).map fun r =>
      { s with
        mem := r.1
        calls := update s.calls c r.2
        last := if r.2.pc = .ok then update s.last r.2.key (some r.2.value) else s.last }
  | .resize =>
    (resizeStep hash alloc s.mem s.resizer).map fun r => { s with mem := r.1, resizer := r.2 }

def system (m₀ : Memory) : System State Action where
  start s := s.mem = m₀ ∧ x.Starts alloc s.resizer ∧ (∀ c, (s.calls c).pc = .idle) ∧
    ∀ key, s.last key = none
  next := next hash alloc

/-- When all have returned, `search` finds the last `update` that returned 0, and nothing after a
`remove` that did. -/
def Kept (s : State) : Prop :=
  s.resizer.pc = .returned → (∀ c, done (s.calls c).pc) →
    ∀ key w, s.last key = some w → search hash s.mem s.mem.dir key = w

/-- Calls are for keys of the subtable in `K`, and change no slot of a key that moves once `resize`
has read the old table. -/
def Rely (s : State) : Action → Prop
  | .update _ key value _ => K key ∧ x.Member hash key ∧ 0 ∉ value
  | .remove _ key => K key ∧ x.Member hash key
  | .step c => ∀ q, (s.calls c).pc = .cas q →
      s.mem.slot ((s.calls c).addr hash q) = (s.calls c).buf.slot q →
      (∃ i j, IsSlot x.oldTable i j ((s.calls c).addr hash q)) → x.Moves hash (s.calls c).key →
      s.resizer.pc.progress = .before
  | .resize => True

structure CallInv (block : ℕ → Option Block) (c : ModifyCall) : Prop where
  args : done c.pc = false → K c.key ∧ x.Member hash c.key ∧ ∀ v ∈ c.value, 0 ∉ v
  newSlot : done c.pc = false → (c.newSlot = .null ∧ c.value = none) ∨
    (c.newSlot ≠ .null ∧ ∃ w, c.value = some w ∧ block c.newSlot.pointer = some ⟨c.key, w⟩ ∧
      c.newSlot.fp = getFingerprint (hash c.key).h0)
  read : c.pc = .read1 → ∀ q, posGroup q = 0 → c.buf.slot q ≠ .null →
    ∃ b, block (c.buf.slot q).pointer = some b ∧ K b.key
  cas : ∀ q, c.pc = .cas q → c.buf.slot q ≠ .null ∧
    ∃ b, block (c.buf.slot q).pointer = some b ∧ b.key = c.key

/-- The memory stores `map`, which agrees with the calls that have returned. -/
structure Inv (s : State) (map : Bytes → Option Bytes) : Prop where
  splitting : Splitting x hash K alloc s.mem s.resizer map
  call : ∀ c, CallInv x hash K s.mem.block (s.calls c)
  last : ∀ key w, s.last key = some w →
    map key = w ∧ K key ∧ x.Member hash key ∧ ∀ v ∈ w, 0 ∉ v

end

variable {x : Split} {hash : Bytes → Hashes} {K : Bytes → Prop} {alloc : ℕ → ℕ}
  {m m' m₀ : Memory} {s t : State} {map : Bytes → Option Bytes} {c c' : ModifyCall}

/-! ### One call -/

variable {block : ℕ → Option Block} {p : Progress} {key value : Bytes} {pointer : ℕ} {a : Action}

theorem CallInv.mono {block' : ℕ → Option Block} (h : CallInv x hash K block c)
    (hb : ∀ q b, block q = some b → block' q = some b) : CallInv x hash K block' c := by
  refine ⟨h.args, fun hd => ?_, fun hpc q hq hne => ?_, fun q hpc => ?_⟩
  · refine (h.newSlot hd).imp id ?_
    rintro ⟨hne, w, hw, hblock, hfp⟩
    exact ⟨hne, w, hw, hb _ _ hblock, hfp⟩
  · obtain ⟨b, hblock, hK⟩ := h.read hpc q hq hne
    exact ⟨b, hb _ _ hblock, hK⟩
  · obtain ⟨hne, b, hblock, hk⟩ := h.cas q hpc
    exact ⟨hne, b, hb _ _ hblock, hk⟩

theorem CallInv.of_done (hd : done c.pc) : CallInv x hash K block c := by
  refine ⟨fun hf => ?_, fun hf => ?_, fun hpc => ?_, fun q hpc => ?_⟩
  · simp [hd] at hf
  · simp [hd] at hf
  · simp [hpc, done] at hd
  · simp [hpc, done] at hd

theorem cas_of_found {q : ℕ} (hK : PrefixFree K) (hkey : K c.key)
    (hblock : ∀ q, c.buf.slot q ≠ .null → ∃ b, m.block (c.buf.slot q).pointer = some b ∧ K b.key)
    (hf : c.found hash m = .cas q) :
    c.buf.slot q ≠ .null ∧ ∃ b, m.block (c.buf.slot q).pointer = some b ∧ b.key = c.key := by
  unfold ModifyCall.found at hf
  split at hf
  · cases hf
  · cases hq : findKey m.block (hash c.key) c.key c.buf.slot with
    | none => simp [hq] at hf
    | some p =>
      simp only [hq, ModifyPc.cas.injEq] at hf
      subst hf
      have hmatch := List.find?_some hq
      simp only [matchesKey, decide_eq_true_eq] at hmatch
      obtain ⟨hne, -, hr⟩ := hmatch
      obtain ⟨b, hb, hbK⟩ := hblock p hne
      rw [hb] at hr
      exact ⟨hne, b, hb, hK.key_eq hkey hbK hr⟩

theorem block_of_readGroup {old new : ℕ → ℕ → Slot} {r : ℕ} (h : Slots x hash K m p old new map)
    (hb : ∀ q, posGroup q ≠ r → c.buf.slot q ≠ .null → ∃ b, m.block (c.buf.slot q).pointer = some b
      ∧ K b.key) (q : ℕ) (hne : (c.read hash m r).slot q ≠ .null) :
    ∃ b, m.block ((c.read hash m r).slot q).pointer = some b ∧ K b.key := by
  by_cases hq : posGroup q = r
  · have hslot : (c.read hash m r).slot q =
        m.slot (posAddr (c.entry hash).pointer (hash c.key) q) := if_pos hq
    rw [hslot] at hne ⊢
    exact h.allocated _ hne
  · have hslot : (c.read hash m r).slot q = c.buf.slot q := if_neg hq
    rw [hslot] at hne ⊢
    exact hb q hq hne

theorem CallInv.goOn (h : CallInv x hash K block c) (hd : done c.pc = false) (hk : c'.key = c.key)
    (hv : c'.value = c.value) (hs : c'.newSlot = c.newSlot)
    (hpc : c'.pc = .read0 ∨ c'.pc = .checkDir ∨ c'.pc = .checkEntry) :
    CallInv x hash K block c' := by
  refine ⟨fun _ => ?_, fun _ => ?_, fun hr => ?_, fun q hc => ?_⟩
  · rw [hk, hv]
    exact h.args hd
  · rw [hk, hv, hs]
    exact h.newSlot hd
  · rcases hpc with hpc | hpc | hpc <;> simp [hpc] at hr
  · rcases hpc with hpc | hpc | hpc <;> simp [hpc] at hc

theorem CallInv.step {old new : ℕ → ℕ → Slot} (hK : PrefixFree K) (h : CallInv x hash K m.block c)
    (hs : Slots x hash K m p old new map) (hn : ModifyStep hash m c m' c') :
    CallInv x hash K m.block c' := by
  cases hn with
  | read0 hpc =>
    have hd : done c.pc = false := by rw [hpc]; rfl
    refine ⟨fun _ => h.args hd, fun _ => h.newSlot hd, fun _ q hq hne => ?_,
      fun q hc => by cases hc⟩
    have hslot : (c.read hash m 0).slot q =
        m.slot (posAddr (c.entry hash).pointer (hash c.key) q) := if_pos hq
    simp only [hslot] at hne ⊢
    exact hs.allocated _ hne
  | read1 hpc =>
    have hd : done c.pc = false := by rw [hpc]; rfl
    refine ⟨fun _ => h.args hd, fun _ => h.newSlot hd, fun hr => ?_, fun q hf => ?_⟩
    · rcases ModifyCall.found_cases _ m with hf | hf | ⟨q, hf⟩ <;> cases hr.symm.trans hf
    · exact cas_of_found hK (h.args hd).1 (fun q hne => block_of_readGroup hs
        (fun q hq => h.read hpc q ((posGroup_lt q).resolve_right hq)) q hne) hf
  | checkWait hpc => exact h
  | checkDir hpc => exact h.goOn (hpc ▸ rfl) rfl rfl rfl (.inr (.inr rfl))
  | checkEntry hpc hp => exact h.goOn (hpc ▸ rfl) rfl rfl rfl (hp.symm.imp id .inr)
  | replaced hpc hm => exact .of_done rfl
  | lost hpc hm => exact h.goOn (hpc ▸ rfl) rfl rfl rfl (.inl rfl)

theorem newSlot_block_update (hp : pointer ≠ 0) :
    (c.update hash key value pointer).newSlot ≠ .null := by
  intro h
  exact hp (congrArg Slot.pointer h)

/-! ### Runs -/

theorem Inv.start (h0 : AtRest x hash K m₀) (h : (system x hash alloc m₀).start s) :
    ∃ map, Inv x hash K alloc s map := by
  obtain ⟨hm, hr, hc, hl⟩ := h
  obtain ⟨map, hmap⟩ := h0.splitting hr
  refine ⟨map, hm ▸ hmap, fun c => .of_done (by rw [hc c]; rfl), fun key w hw => ?_⟩
  simp [hl key] at hw

theorem Inv.step_update {c : ℕ} (h : Inv x hash K alloc s map)
    (hc : Rely x hash K s (.update c key value pointer))
    (hn : next hash alloc s (.update c key value pointer) = some t) : Inv x hash K alloc t map := by
  obtain ⟨hg, hn⟩ := ite_none_right_eq_some.mp hn
  obtain ⟨-, hp, hb⟩ := hg
  cases hn
  have hkept : ∀ q b, s.mem.block q = some b →
      (s.mem.writeBlock key value pointer).block q = some b := fun q b => writeBlock_of_some hb
  refine ⟨⟨h.splitting.control, h.splitting.headers, h.splitting.slots.writeBlock hb⟩,
    (forall_update_iff _ fun _ => CallInv x hash K _).mpr ⟨?_, fun d _ => (h.call d).mono hkept⟩,
    h.last⟩
  refine ⟨fun _ => ⟨hc.1, hc.2.1, ?_⟩, fun _ => .inr ⟨newSlot_block_update hp, value, rfl, ?_,
    rfl⟩, fun hr => (by cases hr), fun q hr => (by cases hr)⟩
  · rintro v hv
    cases hv
    exact hc.2.2
  · exact update_self ..

theorem Inv.step_remove {c : ℕ} (h : Inv x hash K alloc s map)
    (hc : Rely x hash K s (.remove c key)) (hn : next hash alloc s (.remove c key) = some t) :
    Inv x hash K alloc t map := by
  obtain ⟨-, ⟨⟩⟩ := ite_none_right_eq_some.mp hn
  refine ⟨h.splitting, (forall_update_iff _ fun _ => CallInv x hash K _).mpr
    ⟨?_, fun d _ => h.call d⟩, h.last⟩
  refine ⟨fun _ => ⟨hc.1, hc.2, ?_⟩, fun _ => .inl ⟨rfl, rfl⟩, fun hr => (by cases hr),
    fun q hr => (by cases hr)⟩
  rintro v hv
  cases hv

theorem Inv.step_call {c : ℕ} (hap : Apart x.oldTable x.newTable) (hK : PrefixFree K)
    (h : Inv x hash K alloc s map) (hc : Rely x hash K s (.step c))
    (hn : next hash alloc s (.step c) = some t) : ∃ map', Inv x hash K alloc t map' := by
  obtain ⟨⟨m', c'⟩, hs, rfl⟩ := map_eq_some_iff.mp hn
  have hcase := modifyStep_cases hs
  have hcall := (h.call c).step hK h.splitting.slots hcase
  have hcalls : ∀ d, CallInv x hash K s.mem.block (update s.calls c c' d) :=
    (forall_update_iff _ fun _ => CallInv x hash K _).mpr ⟨hcall, fun d _ => h.call d⟩
  rcases hcase.quiet_or_replaced with ⟨rfl, hok⟩ | ⟨q, hpc, hm, rfl, hok, hkey, hvalue⟩
  · exact ⟨map, h.splitting, hcalls, by simpa only [if_neg hok] using h.last⟩
  · have hd : done (s.calls c).pc = false := by rw [hpc]; rfl
    obtain ⟨hk, hmem, hnul⟩ := (h.call c).args hd
    obtain ⟨hne, b, hb, hbk⟩ := (h.call c).cas q hpc
    have hslots := h.splitting.slots.replace hap (v := (s.calls c).value)
      ⟨hm ▸ hne, hm ▸ hb⟩ (hbk ▸ hmem) (fun i j hsl hmv => hc q hpc hm ⟨i, j, hsl⟩ (hbk ▸ hmv))
      (by rw [hbk]; exact (h.call c).newSlot hd)
    rw [hbk] at hslots
    refine ⟨_, ⟨h.splitting.control, h.splitting.headers, hslots⟩, hcalls, fun key w hw => ?_⟩
    simp only [if_pos hok, hkey, hvalue] at hw
    by_cases hkk : key = (s.calls c).key
    · subst hkk
      rw [update_self, some.injEq] at hw
      rw [update_self, ← hw]
      exact ⟨rfl, hk, hmem, hnul⟩
    · rw [update_of_ne hkk] at hw ⊢
      exact h.last key w hw

theorem Inv.step (hap : Apart x.oldTable x.newTable) (hK : PrefixFree K)
    (h : Inv x hash K alloc s map) (hc : Rely x hash K s a) (hn : next hash alloc s a = some t) :
    ∃ map', Inv x hash K alloc t map' := by
  cases a with
  | update c key value pointer => exact ⟨map, h.step_update hc hn⟩
  | remove c key => exact ⟨map, h.step_remove hc hn⟩
  | step c => exact h.step_call hap hK hc hn
  | resize =>
    obtain ⟨⟨m', r'⟩, hs, rfl⟩ := map_eq_some_iff.mp hn
    refine ⟨map, h.splitting.step hs hap hK, fun c => (h.call c).mono fun q b hb => ?_, h.last⟩
    rwa [resizeStep_block hs]

theorem inv_of_rely (hK : PrefixFree K) (h0 : AtRest x hash K m₀)
    (h : (system x hash alloc m₀).RunWith (Rely x hash K) s) : ∃ map, Inv x hash K alloc s map := by
  refine h.invariant (P := fun s => ∃ map, Inv x hash K alloc s map)
    (fun s hs => Inv.start h0 hs) ?_
  rintro s a t ⟨map, hmap⟩ hc hn
  exact hmap.step h0.apart_new hK hc hn

theorem kept_of_rely (hK : PrefixFree K) (h0 : AtRest x hash K m₀)
    (h : (system x hash alloc m₀).RunWith (Rely x hash K) s) : Kept hash s := by
  intro hpc _ key w hw
  obtain ⟨map, hinv⟩ := inv_of_rely hK h0 h
  obtain ⟨hmap, hk, hmem, hnul⟩ := hinv.last key w hw
  rw [hinv.splitting.search_eq hK hpc hk hmem, hmap]
  cases w with
  | none => rfl
  | some v => exact congrArg some (strncpy_of_nulFree (hnul v rfl))

/-! ### A table with one key, which moves -/

theorem runWith_runs {C : State → Action → Prop} {p : Memory × Resizer} (hC : ∀ s, C s .resize)
    (h : (system x hash alloc m₀).RunWith C s) (hr : Runs hash alloc (s.mem, s.resizer) p) :
    (system x hash alloc m₀).RunWith C { s with mem := p.1, resizer := p.2 } :=
  h.lift (f := fun p => { s with mem := p.1, resizer := p.2 }) Action.resize hC
    (fun p q hpq => by simp [system, next, hpq]) hr

def movingStored : Memory := storing hashFunction movingKey [97] 64

def startState : State where
  mem := movingStored
  resizer := startResizer
  calls _ :=
    { pc := .idle, key := [], value := none, newSlot := .null, dirCache := setup.dir, base := 0
      buf := ⟨fun _ => ⟨0, 0⟩, fun _ => .null⟩, entryIdx := 0 }
  last _ := none

theorem atRest_movingStored :
    AtRest (setupSplit 611) hashFunction (· = movingKey) movingStored := by
  have hkey : ∀ a b, movingStored.Holds a b → b = ⟨movingKey, [97]⟩ := fun a b hb =>
    some.inj (hb.2.symm.trans (eq_of_slot_storing hb.1).2.2)
  refine atRest_setup (by omega) (wellFormed_storing [97] 64) rfl rfl (fun a b hb => ?_)
    fun hb hb' _ => (eq_of_slot_storing hb.1).1.trans (eq_of_slot_storing hb'.1).1.symm
  rw [hkey a b hb]

abbrev moving : System State Action := system (setupSplit 611) hashFunction newTables movingStored

theorem start_startState : moving.start startState :=
  ⟨rfl, starts_startResizer, fun _ => rfl, fun _ => rfl⟩

def toBuckets : List Action := List.replicate 15 .resize

def alone (a : Action) : List Action := a :: List.replicate 3 (.step 0)

def Early (s : State) : Action → Prop
  | .update _ key value _ => key = movingKey ∧ 0 ∉ value
  | .remove _ key => key = movingKey
  | .step _ => s.resizer.pc.progress = .before
  | .resize => True

instance (s : State) (a : Action) : Decidable (Early s a) := by
  cases a <;> unfold Early <;> infer_instance

theorem Early.rely (h : Early s a) : Rely (setupSplit 611) hashFunction (· = movingKey) s a := by
  cases a with
  | update c key value pointer =>
    obtain ⟨rfl, hv⟩ := h
    exact ⟨rfl, member_movingKey, hv⟩
  | remove c key =>
    cases h
    exact ⟨rfl, member_movingKey⟩
  | step c => exact fun _ _ _ _ _ => h
  | resize => trivial

def updateFirst : List Action := alone (.update 0 movingKey [98] 128) ++ toBuckets

theorem kept_updateFirst :
    ∃ s, (system (setupSplit 611) hashFunction newTables movingStored).Reachable s ∧
      s.resizer.pc = .returned ∧ s.last movingKey = some (some [98]) ∧ Kept hashFunction s := by
  obtain ⟨s, -, hs, ⟨hp, ho⟩, hlast, hused⟩ := System.exists_runWith _ Early (fun s =>
    (Poised s.mem s.resizer ∧ Holding s.mem s.resizer) ∧ s.last movingKey = some (some [98]) ∧
      s.mem.slot (slotAddr (setupSplit 611).oldTable 724 0) ≠ .null) start_startState
    updateFirst (by decide +kernel) (by decide +kernel)
  have hreach := hs.mono fun _ _ => Early.rely
  obtain ⟨map, hinv⟩ := inv_of_rely prefixFree_movingKey atRest_movingStored hreach
  obtain ⟨m', r', hruns, hpc, -⟩ := hp.completes ho fun b hb j hj hne =>
    hinv.splitting.oldSlot_eq_null hp.1.1 moves_movingKey (by decide) hused hb hj hne
  have hend := runWith_runs (fun _ => trivial) hreach hruns
  exact ⟨_, hend.reachable, hpc, hlast, kept_of_rely prefixFree_movingKey atRest_movingStored hend⟩

def OneClient (_ : State) : Action → Prop
  | .update c .. | .remove c _ | .step c => c = 0
  | .resize => True

theorem exec_calls {as : List Action} {c : ℕ} (hc : c ≠ 0) (ha : ∀ a ∈ as, OneClient s a)
    (h : (system x hash alloc m₀).exec s as = some t) : t.calls c = s.calls c := by
  refine System.exec_frame (f := fun s => s.calls c) (P := OneClient s) ?_ ha h
  rintro s a t ha hn
  cases a with
  | update d key value pointer | remove d key =>
    obtain rfl : d = 0 := ha
    obtain ⟨-, ⟨⟩⟩ := ite_none_right_eq_some.mp hn
    exact update_of_ne hc _ _
  | step d =>
    obtain rfl : d = 0 := ha
    obtain ⟨p, -, rfl⟩ := map_eq_some_iff.mp hn
    exact update_of_ne hc _ _
  | resize =>
    obtain ⟨p, -, rfl⟩ := map_eq_some_iff.mp hn
    rfl

theorem exec_resizer {as : List Action} (ha : ∀ a ∈ as, a ≠ .resize)
    (h : (system x hash alloc m₀).exec s as = some t) : t.resizer = s.resizer := by
  refine System.exec_frame (f := State.resizer) (P := (· ≠ Action.resize)) ?_ ha h
  rintro s a t ha hn
  cases a with
  | update c key value pointer | remove c key =>
    obtain ⟨-, ⟨⟩⟩ := ite_none_right_eq_some.mp hn
    rfl
  | step c =>
    obtain ⟨p, -, rfl⟩ := map_eq_some_iff.mp hn
    rfl
  | resize => exact absurd rfl ha

/-- The client removes `o` after the resize has read the old table: the CAS that clears the slot
fails, and the undo expects 0, the word that the copy's CAS has left. -/
theorem not_kept_removeLate : AtRest (setupSplit 611) hashFunction (· = movingKey) movingStored ∧
      ∃ s, (system (setupSplit 611) hashFunction newTables movingStored).Reachable s ∧
        ¬ Kept hashFunction s := by
  refine ⟨atRest_movingStored, ?_⟩
  have hrun : (moving.exec startState toBuckets).bind (fun s =>
      (moving.exec s (alone (.remove 0 movingKey))).map fun t => decide (
        (s.resizer.pc = .bucket 0 ∧
          s.mem.slot (slotAddr (setupSplit 611).oldTable 724 0) ≠ .null) ∧
        (Poised t.mem t.resizer ∧ Holding t.mem t.resizer) ∧ t.last movingKey = some none ∧
        (t.calls 0).pc = .ok ∧
        t.mem.block (t.resizer.oldSlot 724 0).pointer = some ⟨movingKey, [97]⟩ ∧
        (t.resizer.oldSlot 724 0).fp = getFingerprint (hashFunction movingKey).h0)) =
      some true := by
    decide +kernel
  have hsteps : moving.AllSteps Early startState toBuckets := by decide +kernel
  obtain ⟨s, hs, ht⟩ := bind_eq_some_iff.mp hrun
  obtain ⟨t, ht, hfacts⟩ := map_eq_some_iff.mp ht
  obtain ⟨⟨hpcs, hused⟩, ⟨hp, ho⟩, hlast, hok, hblock, hfp⟩ := of_decide_eq_true hfacts
  have hsame : t.resizer = s.resizer := exec_resizer (by simp [alone]) ht
  obtain ⟨map, hinv⟩ := inv_of_rely prefixFree_movingKey atRest_movingStored
    ((System.RunWith.exec (.start start_startState) _ hsteps hs).mono fun _ _ => Early.rely)
  obtain ⟨m', r', hruns, hpc, hb, hentry, hslot⟩ := hp.completes ho fun b hb j hj hne => by
    rw [hsame]
    exact hinv.splitting.oldSlot_eq_null hpcs moves_movingKey (by decide) hused hb hj hne
  have hend := runWith_runs (fun _ => trivial)
    ((System.Reachable.start start_startState).exec _ hs |>.exec _ ht) hruns
  refine ⟨_, hend, fun hk => ?_⟩
  have hnone := hk hpc (fun c => ?_) movingKey none hlast
  · have hpos : posAddr (setupSplit 611).newTable (hashFunction movingKey) 0 =
        slotAddr (setupSplit 611).newTable 724 0 := by decide +kernel
    have hholds : m'.Holds (posAddr (setupSplit 611).newTable (hashFunction movingKey) 0)
        ⟨movingKey, [97]⟩ := by
      rw [Memory.Holds, hpos, hslot, hb]
      exact ⟨ho.1.2.1, hblock⟩
    have hfound : (searchAt hashFunction m' (setupSplit 611).newTable movingKey).isSome :=
      searchAt_isSome (by decide) hholds (by rw [hpos, hslot, hfp]) (by decide)
    rw [search_eq_searchAt, hentry] at hnone
    rw [hnone] at hfound
    cases hfound
  · by_cases hc : c = 0
    · subst hc
      rw [hok]
      rfl
    · have ht := exec_calls hc (by simp [alone, OneClient]) ht
      have hs := exec_calls hc (by simp [toBuckets, OneClient]) hs
      rw [ht, hs]
      rfl

end Fusa.Table.UpdateResize

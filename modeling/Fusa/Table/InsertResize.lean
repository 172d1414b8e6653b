import Fusa.Table.InsertSplit
import Fusa.Table.MovingKey

/-! One `insert` of an absent key while one `resize` splits its subtable. -/
namespace Fusa.Table.InsertResize
open Transition Option

structure State where
  mem : Memory
  resizer : Resizer
  call : InsertCall

/-- The client reads the directory or calls `insert`, or call or resize take a step. -/
inductive Action
  | readDir
  | insert (value : Bytes) (pointer : ℕ)
  | step
  | resize

section
variable (x : Split) (hash : Bytes → Hashes) (key : Bytes) (alloc : ℕ → ℕ)

def next (s : State) : Action → Option State
  | .readDir =>
    if s.call.pc = .idle ∧ s.mem.dir.locked = false then
      some { s with call := { s.call with dirCache := s.mem.dir } }
    else none
  | .insert value pointer =>
    if s.call.pc = .idle ∧ pointer ≠ 0 ∧ s.mem.block pointer = none then
      some { s with
        mem := s.mem.writeBlock key value pointer
        call := { s.call with
          key := key, value := value, newSlot := blockSlot hash key value pointer, pc := .find0 } }
    else none
  | .step =>
    (insertStep hash s.mem s.call).map fun r => { s with mem := r.1, call := r.2 }
  | .resize =>
    (resizeStep hash alloc s.mem s.resizer).map fun r => { s with mem := r.1, resizer := r.2 }

def system (m₀ : Memory) : System State Action where
  start s := s.mem = m₀ ∧ x.Starts alloc s.resizer ∧ s.call.pc = .idle ∧
    s.call.dirCache = m₀.dir
  next := next hash key alloc

/-- When both have returned, `search` finds the key with its value. -/
def Survives (s : State) : Prop :=
  s.resizer.pc = .returned → s.call.pc = .returned →
    search hash s.mem s.mem.dir key = some s.call.value

/-- The value is free of NULs, and the resize does not disturb the call. -/
def Rely (s : State) : Action → Prop
  | .insert value _ => 0 ∉ value
  | .step => Undisturbed x hash key s.mem s.resizer s.call
  | .readDir | .resize => True

end

variable {x : Split} {hash : Bytes → Hashes} {K : Bytes → Prop} {key : Bytes} {alloc : ℕ → ℕ}
  {m₀ : Memory} {s t : State} {map : Bytes → Option Bytes}

theorem insertion_start (h0 : AtRest x hash K m₀) (habs : ∀ a, ¬ m₀.HoldsKey a key)
    (hmem : x.Member hash key) (h : (system x hash key alloc m₀).start s) :
    ∃ map, Insertion x hash K key alloc s.mem s.resizer s.call map := by
  obtain ⟨hm, hr, hpc, hd⟩ := h
  obtain ⟨map, hmap⟩ := h0.splitting hr
  have hnone : map key = none := by
    cases hv : map key with
    | none => rfl
    | some v =>
      obtain ⟨a, b, hb, hk, -⟩ := hmap.slots.represents.exists_cell hv
      exact absurd ⟨b, hb.1, hk⟩ (habs a)
  refine ⟨map, hm ▸ hmap, ⟨?_, fun hi => absurd hpc hi, fun hi => absurd hpc hi, ?_⟩,
    fun _ _ => hnone, fun hc => ?_⟩
  · rw [hd]
    exact hmap.control.cached h0.wellFormed.unlocked hmem
  · rw [hpc]
    trivial
  · rw [hpc] at hc
    cases hc

theorem insertion_step {a : Action} (hap : Apart x.oldTable x.newTable) (hK : PrefixFree K)
    (hkey : K key) (hmem : x.Member hash key)
    (h : Insertion x hash K key alloc s.mem s.resizer s.call map) (hc : Rely x hash key s a)
    (hn : next hash key alloc s a = some t) :
    ∃ map', Insertion x hash K key alloc t.mem t.resizer t.call map' := by
  cases a with
  | readDir =>
    obtain ⟨hg, ⟨⟩⟩ := ite_none_right_eq_some.mp hn
    refine ⟨map, h.splitting, ⟨h.splitting.control.cached hg.2 hmem, h.call.args,
      h.call.newSlot, ?_⟩, h.absent, h.stored⟩
    simp only [hg.1]
    trivial
  | insert value pointer =>
    obtain ⟨hg, hn⟩ := ite_none_right_eq_some.mp hn
    obtain ⟨hpc, hp, hb⟩ := hg
    cases hn
    refine ⟨map, ⟨h.splitting.control, h.splitting.headers, h.splitting.slots.writeBlock hb⟩,
      ⟨h.call.cached, fun _ => ⟨rfl, hc⟩, fun _ => ⟨fun hnull => ?_, ?_, rfl⟩, trivial⟩,
      fun _ _ => ?_, fun hf => (by cases hf)⟩
    · exact hp (congrArg Slot.pointer hnull)
    · exact Function.update_self ..
    · exact h.absent (hpc ▸ rfl) (by simp [hpc])
  | step =>
    obtain ⟨⟨m', c'⟩, hs, rfl⟩ := map_eq_some_iff.mp hn
    exact h.step hmem hap hkey hK hc (insertStep_cases hs)
  | resize =>
    obtain ⟨⟨m', r'⟩, hs, rfl⟩ := map_eq_some_iff.mp hn
    exact ⟨map, h.splitting.step hs hap hK, h.call.resize h.splitting hap hs, h.absent, h.stored⟩

theorem insertion_of_rely (hK : PrefixFree K) (h0 : AtRest x hash K m₀) (hkey : K key)
    (hmem : x.Member hash key) (habs : ∀ a, ¬ m₀.HoldsKey a key)
    (h : (system x hash key alloc m₀).RunWith (Rely x hash key) s) :
    ∃ map, Insertion x hash K key alloc s.mem s.resizer s.call map := by
  refine h.invariant
    (P := fun s => ∃ map, Insertion x hash K key alloc s.mem s.resizer s.call map)
    (fun s hs => insertion_start h0 habs hmem hs) ?_
  rintro s a t ⟨map, hmap⟩ hc hn
  exact insertion_step h0.apart_new hK hkey hmem hmap hc hn

theorem survives_of_rely (hK : PrefixFree K) (h0 : AtRest x hash K m₀) (hkey : K key)
    (hmem : x.Member hash key) (habs : ∀ a, ¬ m₀.HoldsKey a key)
    (h : (system x hash key alloc m₀).RunWith (Rely x hash key) s) : Survives hash key s := by
  intro hr hc
  obtain ⟨map, hinv⟩ := insertion_of_rely hK h0 hkey hmem habs h
  rw [hinv.splitting.search_eq hK hr hkey hmem, hinv.stored (hc ▸ rfl)]
  exact congrArg some (strncpy_of_nulFree (hinv.call.args (by simp [hc])).2)

/-! ### The key `o` in the empty table of `Setup` -/

theorem runWith_runs {C : State → Action → Prop} {p : Memory × Resizer} (hC : ∀ s, C s .resize)
    (h : (system x hash key alloc m₀).RunWith C s) (hr : Runs hash alloc (s.mem, s.resizer) p) :
    (system x hash key alloc m₀).RunWith C { s with mem := p.1, resizer := p.2 } :=
  h.lift (f := fun p => { s with mem := p.1, resizer := p.2 }) Action.resize hC
    (fun p q hpq => by simp [system, next, hpq]) hr

def startState : State where
  mem := setup
  resizer := startResizer
  call :=
    { pc := .idle, key := [], value := [], newSlot := .null, dirCache := setup.dir, base := 0
      buf := ⟨fun _ => ⟨0, 0⟩, fun _ => .null⟩, slotAddr := 0, slotBucket := 0, slotPos := 0 }

abbrev empty : System State Action := system (setupSplit 611) hashFunction movingKey newTables setup

theorem start_startState : empty.start startState := ⟨rfl, starts_startResizer, rfl, rfl⟩

theorem atRest_empty : AtRest (setupSplit 611) hashFunction (· = movingKey) setup :=
  atRest_setup (by omega) (wellFormed_setup _) rfl rfl (fun _ _ hb => absurd rfl hb.1)
    fun hb => absurd rfl hb.1

theorem absent_empty (a : ℕ) : ¬ setup.HoldsKey a movingKey := fun ⟨_, hb, _⟩ => hb.1 rfl

def toBuckets : List Action := List.replicate 15 .resize

def alone : List Action := .insert [97] 64 :: List.replicate 5 .step

def Early (s : State) : Action → Prop
  | .insert value _ => 0 ∉ value
  | .step => s.resizer.pc.progress = .before
  | .readDir | .resize => True

instance (s : State) (a : Action) : Decidable (Early s a) := by
  cases a <;> unfold Early <;> infer_instance

theorem Early.rely {a : Action} (h : Early s a) :
    Rely (setupSplit 611) hashFunction movingKey s a := by
  cases a with
  | insert value pointer => exact h
  | step =>
    have hidle : ¬ s.resizer.pc.progress.active := by
      rw [h]
      exact id
    refine fun _ => ⟨fun _ => hidle, fun q _ => ⟨hidle, fun hr => ?_⟩⟩
    rw [Early, hr] at h
    cases h
  | readDir | resize => trivial

theorem survives_insertFirst :
    ∃ s, empty.Reachable s ∧ s.resizer.pc = .returned ∧ s.call.pc = .returned ∧
      Survives hashFunction movingKey s := by
  obtain ⟨s, -, hs, ⟨hp, ho⟩, hret, hused⟩ := empty.exists_runWith Early (fun s =>
    (Poised s.mem s.resizer ∧ Holding s.mem s.resizer) ∧ s.call.pc = .returned ∧
      s.mem.slot (slotAddr (setupSplit 611).oldTable 724 0) ≠ .null) start_startState
    (alone ++ toBuckets) (by decide +kernel) (by decide +kernel)
  have hreach := hs.mono fun _ _ => Early.rely
  obtain ⟨map, hinv⟩ := insertion_of_rely prefixFree_movingKey atRest_empty rfl member_movingKey
    absent_empty hreach
  obtain ⟨m', r', hruns, hpc, -⟩ := hp.completes ho fun b hb j hj hne =>
    hinv.splitting.oldSlot_eq_null hp.1.1 moves_movingKey (by decide) hused hb hj hne
  have hend := runWith_runs (fun _ => trivial) hreach hruns
  exact ⟨_, hend.reachable, hpc, hret, survives_of_rely prefixFree_movingKey atRest_empty rfl
    member_movingKey absent_empty hend⟩

theorem exec_resizer {as : List Action} (ha : ∀ a ∈ as, a ≠ .resize)
    (h : (system x hash key alloc m₀).exec s as = some t) : t.resizer = s.resizer := by
  refine System.exec_frame (f := State.resizer) (P := (· ≠ Action.resize)) ?_ ha h
  rintro s a t ha hn
  cases a with
  | readDir | insert =>
    obtain ⟨-, ⟨⟩⟩ := ite_none_right_eq_some.mp hn
    rfl
  | step =>
    obtain ⟨p, -, rfl⟩ := map_eq_some_iff.mp hn
    rfl
  | resize => exact absurd rfl ha

/-- The insert runs between the resize's read of the old table and its marks there: it finds no sign
of the split, and its slot is not looked at again. -/
theorem not_survives_insertLate : AtRest (setupSplit 611) hashFunction (· = movingKey) setup ∧
      (∀ a, ¬ setup.HoldsKey a movingKey) ∧
      ∃ s, empty.Reachable s ∧ ¬ Survives hashFunction movingKey s := by
  refine ⟨atRest_empty, absent_empty, ?_⟩
  have hrun : (empty.exec startState toBuckets).bind (fun s => (empty.exec s alone).map fun t =>
      decide ((s.resizer.pc = .bucket 0 ∧ s.call.pc = .idle) ∧ Poised t.mem t.resizer ∧
        t.call.pc = .returned ∧ ∀ q ∈ positions, t.mem.slot
          (posAddr (setupSplit 611).newTable (hashFunction movingKey) q) = .null)) =
      some true := by
    decide +kernel
  have hsteps : empty.AllSteps Early startState toBuckets := by decide +kernel
  obtain ⟨s, hs, ht⟩ := bind_eq_some_iff.mp hrun
  obtain ⟨t, ht, hfacts⟩ := map_eq_some_iff.mp ht
  obtain ⟨⟨hpcs, hidle⟩, hp, hret, hnull⟩ := of_decide_eq_true hfacts
  have hsame : t.resizer = s.resizer := exec_resizer (by simp [alone]) ht
  have hreach := System.RunWith.exec (.start start_startState) _ hsteps hs
  obtain ⟨map, hinv⟩ := insertion_of_rely prefixFree_movingKey atRest_empty rfl member_movingKey
    absent_empty (hreach.mono fun _ _ => Early.rely)
  have hcopy : ∀ b < kTotalBuckets, ∀ j < kAssociatedWays, t.resizer.oldSlot b j = .null := by
    intro b hb j hj
    rw [hsame]
    by_contra hne
    obtain ⟨c, hc, hcount⟩ := hinv.splitting.counts_oldSlot hpcs
      (fun k hk => hk ▸ moves_movingKey) hb hj hne
    have hslots := hinv.splitting.slots
    rw [hpcs] at hslots
    have hmap := hslots.represents.map_key hcount
    rw [hc, hinv.absent (hidle ▸ rfl) (by simp [hidle])] at hmap
    cases hmap
  obtain ⟨m', r', hruns, hpc, -, hdir, hslot⟩ := hp.ready.runs (i := kTotalBuckets)
    (fun hlt => absurd hlt (lt_irrefl _)) fun b hb j hj _ => hcopy b hb j hj
  rw [if_neg (lt_irrefl _)] at hslot
  have hend := runWith_runs (fun _ => trivial) (hreach.reachable.exec _ ht) hruns
  refine ⟨_, hend, fun hk => ?_⟩
  have hfound := hk hpc hret
  rw [search_eq_searchAt, hdir, hp.entry_unlocked] at hfound
  obtain ⟨q, hq, b, hb, -⟩ := searchAt_eq_some hfound
  exact hb.1 (hslot ▸ hnull q (mem_positions.mpr hq))

end Fusa.Table.InsertResize

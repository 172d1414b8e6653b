import Fusa.Table.Mapping
import Fusa.Table.Search

/-! The table as a map, for one client whose calls do not make it resize. -/
namespace Fusa.Table.Sequential
open Function Option

/-- A call with what it finds outside the table: memory for its block, and cache locks. -/
inductive Op
  | insert (key value : Bytes) (pointer : ℕ)
  | update (key value : Bytes) (pointer : ℕ)
  | remove (key : Bytes)
  | search (key : Bytes) (locks : CacheLocks)

/-- What a call returns; `resize` stands for an `insert` that finds no empty slot. -/
inductive Result
  | ok
  | enoent
  | value (v : Bytes)
  | resize
deriving DecidableEq, Repr

structure Client where
  mem : Memory
  dirCache : Directory
  keyCache : KeyCache

section
variable (hash : Bytes → Hashes) (index : Bytes → ℕ) (fast : Bool) (fuel : ℕ)

def idleCall (d : Directory) : ModifyCall where
  pc := .idle
  key := []
  value := none
  newSlot := .null
  dirCache := d
  base := 0
  buf := ⟨fun _ => ⟨0, 0⟩, fun _ => .null⟩
  entryIdx := 0

def insertResult : InsertPc → Option Result
  | .returned => some .ok
  | .full => some .resize
  | _ => none

def modifyResult : ModifyPc → Option Result
  | .ok => some .ok
  | .enoent => some .enoent
  | _ => none

def Client.modify (s : Client) (m : Memory) (c : ModifyCall) : Option (Client × Result) :=
  let r := modifyRun hash fuel m c
  (modifyResult r.2.pc).map fun x => ({ s with mem := r.1, dirCache := r.2.dirCache }, x)

def Client.call (s : Client) : Op → Option (Client × Result)
  | .insert key value pointer =>
    let r := insertRun hash fuel (s.mem.writeBlock key value pointer)
      (insertCall hash s.dirCache key value pointer)
    (insertResult r.2.pc).map fun x => ({ s with mem := r.1, dirCache := r.2.dirCache }, x)
  | .update key value pointer =>
    s.modify hash fuel (s.mem.writeBlock key value pointer)
      ((idleCall s.dirCache).update hash key value pointer)
  | .remove key => s.modify hash fuel s.mem ((idleCall s.dirCache).remove key)
  | .search key locks =>
    let r := searchCall hash index fast s.mem s.dirCache s.keyCache locks key
    some ({ s with dirCache := r.2.1, keyCache := r.2.2 },
      match r.1 with
      | some v => .value v
      | none => .enoent)

def Client.calls (s : Client) : List Op → Option (Client × List Result)
  | [] => some (s, [])
  | op :: ops => do
    let (s, r) ← s.call hash index fast fuel op
    let (s, rs) ← s.calls ops
    return (s, r :: rs)

end

/-! ### The map -/

def apply (map : Bytes → Option Bytes) : Op → (Bytes → Option Bytes)
  | .insert key value _ => update map key (some value)
  | .update key value _ => if (map key).isSome then update map key (some value) else map
  | .remove key => update map key none
  | .search _ _ => map

def answer (map : Bytes → Option Bytes) : Op → Result
  | .insert _ _ _ => .ok
  | .update key _ _ | .remove key => if (map key).isSome then .ok else .enoent
  | .search key _ =>
    match map key with
    | some v => .value v
    | none => .enoent

def answers (map : Bytes → Option Bytes) : List Op → List Result
  | [] => []
  | op :: ops => answer map op :: answers (apply map op) ops

section
variable (hash : Bytes → Hashes) (K : Bytes → Prop)

/-- `alloc_memory` answers with memory that no block lies in. -/
def Fresh (m : Memory) (pointer : ℕ) : Prop := pointer ≠ 0 ∧ m.block pointer = none
deriving Decidable

/-- The arguments of a call: keys in `K`, values that can be stored, and no key inserted twice. -/
def Admits (m : Memory) (map : Bytes → Option Bytes) : Op → Prop
  | .insert key value pointer =>
    K key ∧ Storable key value ∧ Fresh m pointer ∧ map key = none
  | .update key value pointer => K key ∧ Storable key value ∧ Fresh m pointer
  | .remove key | .search key _ => K key

instance [DecidablePred K] (m : Memory) (map : Bytes → Option Bytes) (op : Op) :
    Decidable (Admits K m map op) := by
  cases op <;> unfold Admits <;> infer_instance

section
variable (index : Bytes → ℕ) (fast : Bool) (fuel : ℕ)

/-- Calls one after another, next to what they make of a map. -/
def system : Transition.System (Client × (Bytes → Option Bytes)) Op where
  start _ := True
  next s op := (s.1.call hash index fast fuel op).map fun r => (r.1, apply s.2 op)

def Quiet (s : Client × (Bytes → Option Bytes)) (op : Op) : Prop :=
  Admits K s.1.mem s.2 op ∧ (s.1.call hash index fast fuel op).map Prod.snd ≠ some .resize

instance [DecidablePred K] (s : Client × (Bytes → Option Bytes)) (op : Op) :
    Decidable (Quiet hash K index fast fuel s op) := inferInstanceAs (Decidable (_ ∧ _))

end

/-- The table holds the map, the client its directory, and cached keys name blocks of theirs. -/
structure Models (s : Client) (map : Bytes → Option Bytes) : Prop where
  maps : Maps hash K s.mem map
  dirCache : s.dirCache = s.mem.dir
  cached : s.keyCache.Names s.mem

end

variable {hash : Bytes → Hashes} {K : Bytes → Prop} {index : Bytes → ℕ} {fast : Bool}
  {s : Client} {map : Bytes → Option Bytes} {key value : Bytes} {pointer : ℕ}

theorem Models.of_maps {m : Memory} {map' : Bytes → Option Bytes} (h : Models hash K s map)
    (hm : Maps hash K m map') (hd : m.dir = s.mem.dir)
    (hb : ∀ p b, s.mem.block p = some b → m.block p = some b) :
    Models hash K { s with mem := m } map' :=
  ⟨hm, h.dirCache.trans hd.symm, h.cached.mono hb⟩

section
variable (hK : PrefixFree K) (h : Models hash K s map) (fuel : ℕ)
include hK h

theorem Models.insert (ha : Admits K s.mem map (.insert key value pointer))
    (hno : ∀ s', s.call hash index fast (fuel + 5) (.insert key value pointer) ≠
      some (s', .resize)) :
    ∃ s', s.call hash index fast (fuel + 5) (.insert key value pointer) = some (s', .ok) ∧
      Models hash K s' (update map key (some value)) := by
  obtain ⟨hkey, ⟨hv, -⟩, ⟨hp, hf⟩, hn⟩ := ha
  let m₁ := s.mem.writeBlock key value pointer
  have hm₁ : Maps hash K m₁ map := h.maps.writeBlock hf
  have hb₁ : m₁.block pointer = some ⟨key, value⟩ := update_self ..
  have hentry : s.dirCache.entry (hash key) = m₁.dir.entry (hash key) := by
    rw [h.dirCache]
    rfl
  obtain ⟨c, hd, -, -, ⟨hpc, -, hrun⟩ | ⟨q, hq, hpc, hempty, hrun⟩⟩ :=
    insertRun_alone (c := insertCall hash s.dirCache key value pointer) rfl rfl
      (hm₁.wellFormed.not_stale key) hentry (hm₁.absent hK hkey hn) fuel
  · refine absurd ?_ (hno { s with mem := m₁, dirCache := c.dirCache })
    simp only [Client.call, m₁] at hrun ⊢
    rw [hrun]
    simp only [hpc, insertResult, map_some]
  · refine ⟨_, ?_, h.of_maps (hm₁.insert hkey hv hn ⟨q, hq, rfl⟩ hempty hb₁ hp) rfl
      fun p b hb => writeBlock_of_some hf hb⟩
    simp only [Client.call]
    rw [hrun]
    simp only [hpc, insertResult, map_some, hd]
    rfl

theorem Models.modify {m : Memory} {c : ModifyCall} (hm : Maps hash K m map)
    (hd : m.dir = s.mem.dir) (hpc : c.pc = .read0) (hc : c.dirCache = s.dirCache) (hkey : K c.key) :
    (map c.key = none ∧ s.modify hash (fuel + 3) m c = some ({ s with mem := m }, .enoent)) ∨
      ∃ a b, m.Holds a b ∧ b.key = c.key ∧
        s.modify hash (fuel + 3) m c = some ({ s with mem := m.setSlot a c.newSlot }, .ok) := by
  have hentry : c.entry hash = m.dir.entry (hash c.key) := by
    rw [ModifyCall.entry, hc, h.dirCache, hd]
  obtain ⟨c', hd', ⟨hf, hpc', hrun⟩ | ⟨q, hf, hpc', hrun⟩⟩ :=
    modifyRun_alone hpc (congrArg _ hentry)
      (fun i => by rw [hentry]; exact hm.wellFormed.not_stale c.key i) fuel
  · refine .inl ⟨hm.findKey_eq_none hf, ?_⟩
    simp only [Client.modify, hrun, hpc', modifyResult, map_some, hd', hc]
  · obtain ⟨b, hb, hk⟩ := hm.findKey_eq_some hK hkey hf
    refine .inr ⟨_, b, hb, hk, ?_⟩
    simp only [Client.modify, hrun, hpc', modifyResult, map_some, hd', hc]

theorem Models.update (ha : Admits K s.mem map (.update key value pointer)) :
    ∃ s', s.call hash index fast (fuel + 5) (.update key value pointer) =
        some (s', answer map (.update key value pointer)) ∧
      Models hash K s' (apply map (.update key value pointer)) := by
  obtain ⟨hkey, ⟨hv, -⟩, hp, hf⟩ := ha
  let m₁ := s.mem.writeBlock key value pointer
  have hm₁ : Maps hash K m₁ map := h.maps.writeBlock hf
  have hb₁ : m₁.block pointer = some ⟨key, value⟩ := update_self ..
  have hkeep : ∀ p b, s.mem.block p = some b → m₁.block p = some b :=
    fun p b => writeBlock_of_some hf
  let c := (idleCall s.dirCache).update hash key value pointer
  have hcall : s.call hash index fast (fuel + 5) (.update key value pointer) =
      s.modify hash (fuel + 2 + 3) m₁ c := rfl
  rw [hcall]
  rcases h.modify hK (fuel + 2) (c := c) hm₁ rfl rfl rfl hkey with ⟨hn, hr⟩ | ⟨a, b, hb, hk, hr⟩
  · have hn' : map key = none := hn
    rw [hr]
    simp only [answer, apply, hn', isSome_none, Bool.false_eq_true, if_false]
    exact ⟨_, rfl, h.of_maps hm₁ rfl hkeep⟩
  · obtain rfl : b.key = key := hk
    rw [hr]
    simp only [answer, apply, h.maps.represents.map_key ((h.maps.holds_writeBlock hf).mp hb),
      isSome_some, if_true]
    exact ⟨_, rfl, h.of_maps (hm₁.update hv hb hb₁ hp) rfl hkeep⟩

theorem Models.remove (hkey : K key) :
    ∃ s', s.call hash index fast (fuel + 5) (.remove key) = some (s', answer map (.remove key)) ∧
      Models hash K s' (apply map (.remove key)) := by
  let c := (idleCall s.dirCache).remove key
  have hcall : s.call hash index fast (fuel + 5) (.remove key) =
      s.modify hash (fuel + 2 + 3) s.mem c := rfl
  rw [hcall]
  rcases h.modify hK (fuel + 2) (c := c) h.maps rfl rfl rfl hkey with
    ⟨hn, hr⟩ | ⟨a, b, hb, hk, hr⟩
  · have hn' : map key = none := hn
    rw [hr]
    simp only [answer, apply, hn', isSome_none, Bool.false_eq_true, if_false]
    refine ⟨_, rfl, ?_⟩
    rwa [← hn', update_eq_self]
  · obtain rfl : b.key = key := hk
    rw [hr]
    simp only [answer, apply, h.maps.represents.map_key hb, isSome_some, if_true]
    exact ⟨_, rfl, h.of_maps (h.maps.remove hb) rfl fun p b hb => hb⟩

theorem Models.search {locks : CacheLocks} (hkey : K key) :
    ∃ s', s.call hash index fast fuel (.search key locks) =
        some (s', answer map (.search key locks)) ∧ Models hash K s' map := by
  let r := searchCall hash index fast s.mem s.dirCache s.keyCache locks key
  suffices hr : r.1 = map key ∧ r.2.1 = s.mem.dir ∧ r.2.2.Names s.mem by
    refine ⟨{ s with dirCache := r.2.1, keyCache := r.2.2 }, ?_, h.maps, hr.2.1, hr.2.2⟩
    simp only [Client.call, answer, ← hr.1, r]
  have hnames : (fastSearch hash index fast s.mem s.keyCache locks key).2.Names s.mem :=
    KeyCache.All.fastSearch h.cached
  obtain ⟨value, hf, hr⟩ | ⟨hr, hd, hc⟩ :=
    searchCall_cases hash index fast s.mem s.dirCache s.keyCache locks key
  · obtain ⟨a, b, hb, rfl, rfl⟩ := h.cached.holds hf
    rw [show r = _ from hr, h.maps.represents.map_key hb,
      strncpy_of_nulFree (h.maps.stored a b hb).2]
    exact ⟨rfl, h.dirCache, hnames⟩
  · refine ⟨?_, ?_, ?_⟩
    · rw [show r.1 = _ from hr, h.dirCache, search_eq_searchAt]
      exact h.maps.searchAt_eq hK hkey
    · rw [show r.2.1 = _ from hd]
      rcases slowSearch_dirCache hash s.mem s.dirCache key with hs | hs
      · exact hs.trans h.dirCache
      · exact hs
    · rcases hc with hc | ⟨d, e, value, -, hpass, hc⟩
      · exact hc ▸ hnames
      · rw [show r.2.2 = _ from hc]
        obtain ⟨rfl, hne, -, q, -, -, hs, b, hb, hread⟩ := searchPass_eq_some hpass
        refine KeyCache.All.add hnames ⟨b, hb, hK.key_eq hkey ?_ (hread ▸ rfl)⟩
        exact (h.maps.stored _ b ⟨hs ▸ hne, hs ▸ hb⟩).1

theorem Models.call {op : Op} (hq : Quiet hash K index fast (fuel + 5) (s, map) op) :
    ∃ s', s.call hash index fast (fuel + 5) op = some (s', answer map op) ∧
      Models hash K s' (apply map op) := by
  obtain ⟨ha, hno⟩ := hq
  cases op with
  | insert key value pointer =>
    refine h.insert hK fuel ha fun s' hs => hno ?_
    rw [hs]
    rfl
  | update key value pointer => exact h.update hK fuel ha
  | remove key => exact h.remove hK fuel ha
  | search key locks => exact h.search hK (fuel + 5) ha

end

/-- For all hash functions, one client's calls that do not resize answer as those of a map. -/
theorem calls_eq_answers (hK : PrefixFree K) (h : Models hash K s map) (fuel : ℕ) {ops : List Op}
    (ha : (system hash index fast (fuel + 5)).AllSteps (Quiet hash K index fast (fuel + 5))
      (s, map) ops) :
    ∃ s', s.calls hash index fast (fuel + 5) ops = some (s', answers map ops) := by
  induction ops generalizing s map with
  | nil => exact ⟨s, rfl⟩
  | cons op ops ih =>
    obtain ⟨s', hcall, hs'⟩ := h.call hK fuel ha.1
    obtain ⟨t, ht⟩ := ih hs' (ha.2 (s', apply map op) (by simp [system, hcall]))
    refine ⟨t, ?_⟩
    simp [Client.calls, hcall, ht, answers]

def newClient : Client := ⟨setup, setup.dir, fun _ => none⟩

theorem models_newClient : Models hash K newClient fun _ => none := by
  have hno : ∀ a b, ¬ setup.Holds a b := fun a b hb => hb.1 rfl
  exact ⟨⟨wellFormed_setup hash, fun a b hb => absurd hb (hno a b),
    fun hb => absurd hb (hno _ _), fun hb => absurd hb (hno _ _), fun hv => by cases hv⟩, rfl,
    fun i e he => by cases he⟩

def someCalls : List Op :=
  [.search [111] ⟨true, true, true⟩, .insert [111] [97] 64, .search [111] ⟨true, true, true⟩,
    .update [111] [98] 128, .search [111] ⟨true, true, true⟩, .remove [111],
    .search [111] ⟨true, true, true⟩, .update [111] [99] 192]

theorem calls_eq_answers_someCalls :
    ∃ s', newClient.calls hashFunction List.length true 5 someCalls =
      some (s', [.enoent, .ok, .value [97], .ok, .value [98], .ok, .enoent, .enoent]) := by
  have hK : PrefixFree (· = ([111] : Bytes)) := prefixFree_single (by decide)
  have ha : (system hashFunction List.length true 5).AllSteps
      (Quiet hashFunction (· = [111]) List.length true 5) (newClient, fun _ => none) someCalls := by
    decide +kernel
  exact calls_eq_answers hK models_newClient 0 ha

end Fusa.Table.Sequential

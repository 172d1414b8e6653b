import Fusa.Table.Past
import Fusa.Table.ResizePreserves

/-! Resizes one after another, with the directories that clients keep from the times between
and during them. -/
namespace Fusa.Table.Snapshots
open Transition Option

/-- The memory, the last `resize` with its memory for a table, and directories clients read. -/
structure State where
  mem : Memory
  resizer : Resizer
  table : ℕ
  snapshots : List Directory

/-- A `resize` and its steps, any change of slots and blocks in between, a read of the directory. -/
inductive Action
  | resize (r : Resizer) (table : ℕ)
  | step
  | edit (slot : ℕ → Slot) (block : ℕ → Option Block)
  | snapshot

/-- A call of `resize` that does not abort, and the fresh memory for its table. -/
@[mk_iff]
structure Callable (m : Memory) (r : Resizer) (table : ℕ) : Prop where
  pc : r.pc = .start
  overflow : r.resizeSuffix = none
  idx_lt : r.subtableIdx < 2 ^ m.dir.globalDepth
  grows : (m.dir.subtables r.subtableIdx).localDepth = m.dir.globalDepth →
    m.dir.globalDepth < kMaxGlobalDepth
  fresh : ∀ i < 2 ^ m.dir.globalDepth, Apart (m.dir.subtables i).pointer table

instance (m : Memory) (r : Resizer) (table : ℕ) : Decidable (Callable m r table) :=
  decidable_of_iff _ (callable_iff m r table).symm

section
variable (hash : Bytes → Hashes) (K : Bytes → Prop)

def next (s : State) : Action → Option State
  | .resize r table =>
    if s.resizer.pc = .returned ∧ Callable s.mem r table then
      some { s with resizer := r, table := table }
    else none
  | .step =>
    (resizeStep hash (fun _ => s.table) s.mem s.resizer).map fun p =>
      { s with mem := p.1, resizer := p.2 }
  | .edit slot block =>
    if s.resizer.pc = .returned then
      some { s with mem := { s.mem with slot := slot, block := block } }
    else none
  -- `read_directory` repeats the read while the directory is locked
  | .snapshot =>
    if s.mem.dir.locked then none else some { s with snapshots := s.mem.dir :: s.snapshots }

def system : System State Action where
  start s := s.mem = setup ∧ s.resizer.pc = .returned ∧ s.snapshots = []
  next := next hash

/-- Every slot in use points to a key of `K`, which the stored key's hash sends to its subtable. -/
def Placed (m : Memory) : Prop :=
  ∀ i < 2 ^ m.dir.globalDepth, ∀ b j a, IsSlot (m.dir.subtables i).pointer b j a →
    m.slot a ≠ .null → ∃ c, m.block (m.slot a).pointer = some c ∧ K c.key ∧
      (hash c.storedKey).h0.toNat % 2 ^ (m.dir.subtables i).localDepth =
        i % 2 ^ (m.dir.subtables i).localDepth

/-- The calls between two resizes leave keys of `K` only, each where it belongs. -/
def Keeps (s : State) : Action → Prop
  | .edit slot block => Placed hash K { s.mem with slot := slot, block := block }
  | _ => True

/-- With every older directory `search` finds the same, after at most one read of the directory. -/
def Agrees (s : State) : Prop :=
  s.resizer.pc = .returned → ∀ d ∈ s.snapshots, ∀ key, K key →
    (slowSearch hash s.mem d key).found.map Prod.snd =
        (slowSearch hash s.mem s.mem.dir key).found.map Prod.snd ∧
      (slowSearch hash s.mem d key).rereads ≤ 1

structure Rested (m : Memory) : Prop where
  extendible : Extendible hash m
  keys : ∀ c, m.Stores c → K c.key

/-- Between two resizes, or within one. -/
inductive Inv (s : State) : Prop
  | idle (hpc : s.resizer.pc = .returned) (hm : Rested hash K s.mem)
      (hd : ∀ d ∈ s.snapshots, s.mem.dir.Past d)
  | busy (x : Split) (m₀ : Memory) (hm : Rested hash K m₀) (hx : Splittable x m₀)
      (h : Alone x hash (fun _ => s.table) m₀ s.mem s.resizer)
      (hd : ∀ d ∈ s.snapshots, m₀.dir.Past d ∨ x.Midway d)

end

variable {hash : Bytes → Hashes} {K : Bytes → Prop} {s t : State} {m : Memory}

theorem Rested.edit (h : Rested hash K m) {slot : ℕ → Slot} {block : ℕ → Option Block}
    (hp : Placed hash K { m with slot := slot, block := block }) :
    Rested hash K { m with slot := slot, block := block } := by
  have hm := h.extendible
  refine ⟨{ hm with stored := ?_ }, ?_⟩
  · intro i hi b j a ha hne
    obtain ⟨c, hc, -, hmod⟩ := hp i hi b j a ha hne
    exact ⟨c, hc, hmod⟩
  · rintro c ⟨i, hi, b, j, a, ha, hne, hc⟩
    obtain ⟨c', hc', hk, -⟩ := hp i hi b j a ha hne
    obtain rfl : c = c' := some.inj (hc.symm.trans hc')
    exact hk

section
variable (h : Inv hash K s)
include h

theorem Inv.idle_of_returned (hpc : s.resizer.pc = .returned) :
    Rested hash K s.mem ∧ ∀ d ∈ s.snapshots, s.mem.dir.Past d := by
  cases h with
  | idle _ hm hd => exact ⟨hm, hd⟩
  | busy x m₀ hm hx h hd =>
    refine ⟨⟨h.extendible hm.extendible hx hpc,
      fun c hc => hm.keys c (h.stores hm.extendible hx hpc hc)⟩, fun d hmem => ?_⟩
    rcases hd d hmem with hp | hp
    · exact h.past hpc hm.extendible hx hp
    · exact h.past_midway hpc hm.extendible hx hp

theorem Inv.resize {r : Resizer} {table : ℕ} (hpc : s.resizer.pc = .returned)
    (hc : Callable s.mem r table) : Inv hash K { s with resizer := r, table := table } := by
  obtain ⟨hm, hd⟩ := h.idle_of_returned hpc
  have hx : Splittable ⟨s.mem.dir, r.subtableIdx, table⟩ s.mem :=
    ⟨rfl, hc.idx_lt, hc.grows, hc.fresh⟩
  exact .busy _ s.mem hm hx (hm.extendible.alone hx ⟨hc.pc, rfl, hc.overflow, rfl⟩)
    fun d hmem => .inl (hd d hmem)

theorem Inv.step {p : Memory × Resizer}
    (hn : resizeStep hash (fun _ => s.table) s.mem s.resizer = some p) :
    Inv hash K { s with mem := p.1, resizer := p.2 } := by
  cases h with
  | idle hpc => simp [resizeStep, hpc] at hn
  | busy x m₀ hm hx h hd =>
    exact .busy x m₀ hm hx (h.step hn hx.apart (hx.idle hm.extendible)) hd

theorem Inv.snapshot (hu : s.mem.dir.locked = false) :
    Inv hash K { s with snapshots := s.mem.dir :: s.snapshots } := by
  cases h with
  | idle hpc hm hd =>
    exact .idle hpc hm (List.forall_mem_cons.mpr ⟨hm.extendible.past, hd⟩)
  | busy x m₀ hm hx h hd =>
    exact .busy x m₀ hm hx h (List.forall_mem_cons.mpr ⟨.inr (h.midway hu), hd⟩)

theorem Inv.next {a : Action} (hk : Keeps hash K s a) (hn : next hash s a = some t) :
    Inv hash K t := by
  cases a with
  | resize r table =>
    obtain ⟨hc, ⟨⟩⟩ := ite_none_right_eq_some.mp hn
    exact h.resize hc.1 hc.2
  | step =>
    obtain ⟨p, hp, rfl⟩ := map_eq_some_iff.mp hn
    exact h.step hp
  | edit slot block =>
    obtain ⟨hpc, ⟨⟩⟩ := ite_none_right_eq_some.mp hn
    obtain ⟨hm, hd⟩ := h.idle_of_returned hpc
    exact .idle hpc (hm.edit hk) hd
  | snapshot =>
    obtain ⟨hu, ⟨⟩⟩ := ite_none_left_eq_some.mp hn
    exact h.snapshot (Bool.eq_false_of_not_eq_true hu)

end

theorem rested_setup : Rested hash K setup := by
  refine ⟨extendible_setup hash, ?_⟩
  rintro c ⟨i, -, b, j, a, -, hne, -⟩
  exact absurd rfl hne

theorem inv_of_runWith (h : (system hash).RunWith (Keeps hash K) s) : Inv hash K s := by
  refine h.invariant ?_ fun s a t hs hk hn => hs.next hk hn
  rintro s ⟨hm, hpc, hd⟩
  refine .idle hpc (hm ▸ rested_setup) fun d hmem => ?_
  rw [hd] at hmem
  cases hmem

/-- Lookups with a directory of the past, over keys that no split parts. -/
theorem agrees_of_together (hK : Together hash K) (h : (system hash).RunWith (Keeps hash K) s) :
    Agrees hash K s := by
  intro hpc d hmem key hkey
  obtain ⟨hm, hd⟩ := (inv_of_runWith h).idle_of_returned hpc
  rw [slowSearch_found, slowSearch_found]
  exact ⟨hm.extendible.search_past hK hm.keys hkey (hd d hmem), slowSearch_rereads ..⟩

/-! ### One resize of a table of `Setup` -/

def startState : State := ⟨setup, { startResizer with pc := .returned }, 0, []⟩

theorem exists_resized {idx : ℕ} (hidx : idx < 1024) (hdir : m.dir = setup.dir)
    (hh : m.header = setup.header) (hp : Placed hash K m) :
    ∃ s, (system hash).RunWith (Keeps hash K) s ∧ s.resizer.pc = .returned ∧
      s.snapshots = [setup.dir] ∧ Splittable (tablesSplit 10 idx) m ∧ Extendible hash m ∧
      Alone (tablesSplit 10 idx) hash (fun _ => (tablesSplit 10 idx).newTable) m s.mem
        s.resizer := by
  obtain ⟨dir, header, slot, block⟩ := m
  obtain rfl : dir = setup.dir := hdir
  obtain rfl : header = setup.header := hh
  have hx : Splittable (tablesSplit 10 idx) ⟨setup.dir, setup.header, slot, block⟩ :=
    splittable_tables rfl (by decide) hidx
  have hstart : (system hash).start startState := ⟨rfl, rfl, rfl⟩
  have hread : (system hash).RunWith (Keeps hash K) { startState with snapshots := [setup.dir] } :=
    .step .snapshot (.start hstart) trivial rfl
  have hedit : (system hash).RunWith (Keeps hash K)
      ⟨⟨setup.dir, setup.header, slot, block⟩, startState.resizer, 0, [setup.dir]⟩ :=
    .step (.edit slot block) hread hp rfl
  obtain ⟨hm, -⟩ := (inv_of_runWith hedit).idle_of_returned rfl
  have hcall : Callable ⟨setup.dir, setup.header, slot, block⟩ (resizeCall idx)
      (tablesSplit 10 idx).newTable := ⟨rfl, rfl, hidx, hx.grows, hx.fresh⟩
  have hresize : (system hash).RunWith (Keeps hash K)
      ⟨⟨setup.dir, setup.header, slot, block⟩, resizeCall idx, (tablesSplit 10 idx).newTable,
        [setup.dir]⟩ :=
    .step (.resize (resizeCall idx) (tablesSplit 10 idx).newTable) hedit trivial
      (if_pos ⟨rfl, hcall⟩)
  have hal := hm.extendible.alone hx (starts_tables 10 idx)
  obtain ⟨m', r', hruns, hpc, h⟩ := hal.exists_returned hx.apart (fun _ _ => rfl)
    (show 10 < kMaxGlobalDepth by decide)
  have hend := hresize.lift (f := fun p => State.mk p.1 p.2 (tablesSplit 10 idx).newTable
    [setup.dir]) (p := (_, _)) Action.step (fun _ => trivial)
    (fun p q hpq => by simp [system, Snapshots.next, hpq]) hruns
  exact ⟨_, hend, hpc, rfl, hx, hm.extendible, h⟩

theorem placed_storing {key value : Bytes} {pointer : ℕ} (hkey : K key) (hz : 0 ∉ key) :
    Placed hash K (storing hash key value pointer) := by
  intro i hi b j a ha hne
  obtain ⟨rfl, -, hb⟩ := eq_of_slot_storing hne
  refine ⟨_, hb, hkey, ?_⟩
  have hsl := isSlot_posAddr (setup.dir.entry (hash key)).pointer (hash key) 0
  rw [Block.storedKey, strncpy_of_nulFree hz]
  have hi : i < 2 ^ 10 := hi
  change (hash key).h0.toNat % 2 ^ 10 = i % 2 ^ 10
  rw [Nat.mod_eq_of_lt hi]
  by_contra hne
  exact (apart_setup fun he => hne (Nat.succ.inj he)).ne hsl ha

theorem agrees_movingKey :
    ∃ s, (system hashFunction).RunWith (Keeps hashFunction (· = movingKey)) s ∧
      s.resizer.pc = .returned ∧ setup.dir ∈ s.snapshots ∧
      (s.mem.dir.entry (hashFunction movingKey)).pointer ≠
        (setup.dir.entry (hashFunction movingKey)).pointer ∧
      Agrees hashFunction (· = movingKey) s := by
  obtain ⟨s, hs, hpc, hsnap, -, -, h⟩ := exists_resized (m := storing hashFunction movingKey [] 64)
    (K := (· = movingKey)) (by decide : 611 < 1024) rfl rfl (placed_storing rfl (by decide))
  refine ⟨s, hs, hpc, by simp [hsnap], ?_,
    agrees_of_together (PrefixFree.together (prefixFree_single (by decide))) hs⟩
  have hmem : (tablesSplit 10 611).Member hashFunction movingKey := by
    unfold Split.Member
    decide +kernel
  rw [h.entry_of_member hpc hmem]
  decide +kernel

open Inserts in
/-- With `l` stored and its subtable split, `l16809430` still leads to the block of `l`. -/
theorem not_agrees_longKey :
    ∃ s, (system hashFunction).RunWith (Keeps hashFunction fun _ => True) s ∧
      s.resizer.pc = .returned ∧ setup.dir ∈ s.snapshots ∧
      search hashFunction s.mem setup.dir longKey = some [] ∧
      search hashFunction s.mem s.mem.dir longKey = none := by
  obtain ⟨s, hs, hpc, hsnap, hx, hm, h⟩ := exists_resized (m := shortStored)
    (K := fun _ => True) (by decide : 704 < 1024) rfl rfl (placed_storing trivial (by decide))
  have hex := h.exact hpc
  have hblock : ∀ p c, shortStored.block p = some c → c = ⟨shortKey, []⟩ := by
    rw [shortStored_eq]
    exact fun _ _ => eq_of_block_parted
  refine ⟨s, hs, hpc, by simp [hsnap], ?_,
    h.search_eq_none longKey hm hx hpc (by unfold Split.Member; decide +kernel) fun p c hc => ?_⟩
  · -- the slot of `l` has stayed where the old directory sends `l16809430`
    have hslot : s.mem.slot (posAddr (setup.dir.entry (hashFunction longKey)).pointer
        (hashFunction longKey) 0) = ⟨114, 1, 64⟩ := by
      have hbase : (setup.dir.entry (hashFunction longKey)).pointer =
          (tablesSplit 10 704).oldTable := by decide +kernel
      rw [hbase, hex.kept _ _ _ (isSlot_posAddr _ (hashFunction longKey) 0)
        fun hmv => absurd hmv.1 (by decide +kernel)]
      decide +kernel
    have hread : readBlock longKey ⟨shortKey, []⟩ = some [] := by decide
    have hsome : (searchAt hashFunction s.mem (setup.dir.entry (hashFunction longKey)).pointer
        longKey).isSome := by
      refine searchAt_isSome (q := 0) (b := ⟨shortKey, []⟩) (by decide) ⟨?_, ?_⟩ ?_
        (hread ▸ rfl) <;> rw [hslot]
      · decide
      · rw [hex.block]
        decide +kernel
      · decide +kernel
    obtain ⟨v, hv⟩ := isSome_iff_exists.mp hsome
    obtain ⟨q, -, b, hb, hr⟩ := searchAt_eq_some hv
    rw [hblock _ b (by rw [← hex.block]; exact hb.2), hread] at hr
    rw [search, hv, hr]
  · rw [hblock p c hc]
    decide +kernel

end Fusa.Table.Snapshots

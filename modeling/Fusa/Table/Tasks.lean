import Fusa.Table.Sequential
import Fusa.Table.Snapshots
import Fusa.Table.Tidy

/-! Calls of many tasks: every task has its own copy of the directory, and the tasks of a client
share its key cache. -/
namespace Fusa.Table.Tasks
open Transition Function Option
open Fusa.Table.Sequential (Fresh idleCall)
open Snapshots (Callable)

/-! ### The system -/

/-- The memory, the tasks' directories, the key caches, and the `insert`s without an empty slot. -/
structure State where
  mem : Memory
  dirCache : ℕ → Directory
  keyCache : ℕ → KeyCache
  waiting : List (ℕ × InsertCall)

/-- A call of a task. One that starts reads the directory (`attach`), and an `insert` without an
empty slot resizes before it tries again (`resume`). -/
inductive Op
  | attach (t : ℕ)
  | search (t : ℕ) (key : Bytes) (locks : CacheLocks)
  | insert (t : ℕ) (key value : Bytes) (pointer : ℕ)
  | update (t : ℕ) (key value : Bytes) (pointer : ℕ)
  | rmw (t : ℕ) (key : Bytes) (transform : Bytes → Bytes) (pointer : ℕ)
  | remove (t : ℕ) (key : Bytes)
  | resize (t : ℕ) (r : Resizer) (table : ℕ)
  | resume (i : ℕ) (r : Resizer) (table : ℕ)

def Op.task : Op → ℕ
  | .attach t | .search t _ _ | .insert t _ _ _ | .update t _ _ _ | .rmw t _ _ _ | .remove t _
  | .resize t _ _ | .resume t _ _ => t

/-- Task `t` leaves the memory `m` and has the directory `d` in its cache. -/
def State.after (s : State) (t : ℕ) (m : Memory) (d : Directory) : State :=
  { s with mem := m, dirCache := Function.update s.dirCache t d }

def State.modified (s : State) (t : ℕ) (r : Memory × ModifyCall) : Option State :=
  if r.2.pc = .ok ∨ r.2.pc = .enoent then some (s.after t r.1 r.2.dirCache) else none

def State.inserted (s : State) (t : ℕ) (r : Memory × InsertCall) : Option State :=
  if r.2.pc = .returned then some (s.after t r.1 r.2.dirCache)
  else if r.2.pc = .full then
    some { s.after t r.1 r.2.dirCache with waiting := (t, r.2) :: s.waiting }
  else none

section
variable (hash : Bytes → Hashes) (index : Bytes → ℕ) (fast : Bool) (client : ℕ → ℕ) (fuel : ℕ)

def resizeRun (m : Memory) (r : Resizer) (table : ℕ) : Memory × Resizer :=
  Machine.run (fun s => resizeStep hash (fun _ => table) s.1 s.2) fuel (m, r)

def State.call (s : State) : Op → Option State
  | .attach t => some (s.after t s.mem s.mem.dir)
  | .search t key locks =>
    let r := searchCall hash index fast s.mem (s.dirCache t) (s.keyCache (client t)) locks key
    some { s.after t s.mem r.2.1 with
           keyCache := Function.update s.keyCache (client t) r.2.2 }
  | .insert t key value pointer =>
    s.inserted t (insertRun hash fuel (s.mem.writeBlock key value pointer)
      (insertCall hash (s.dirCache t) key value pointer))
  | .update t key value pointer =>
    s.modified t (modifyRun hash fuel (s.mem.writeBlock key value pointer)
      ((idleCall (s.dirCache t)).update hash key value pointer))
  | .rmw t key transform pointer =>
    s.modified t (rmwRun hash transform pointer fuel s.mem ((idleCall (s.dirCache t)).rmw key))
  | .remove t key =>
    s.modified t (modifyRun hash fuel s.mem ((idleCall (s.dirCache t)).remove key))
  | .resize t r table =>
    let p := resizeRun hash fuel s.mem r table
    if Callable s.mem r table ∧ p.2.pc = .returned then some (s.after t p.1 p.2.dirCache) else none
  | .resume .. => none

/-- An `insert` without an empty slot splits the subtable and goes on; in the second loop the index
comes from a directory no longer cached. -/
def State.resume (s : State) (t : ℕ) (c : InsertCall) (r : Resizer) (table : ℕ) : Option State :=
  let p := resizeRun hash fuel s.mem r table
  if ((c.slotAddr = 0 → r.subtableIdx = (s.dirCache t).index (hash c.key)) ∧
      Callable s.mem r table) ∧ p.2.pc = .returned then
    s.inserted t (insertRun hash fuel p.1
      { c with dirCache := p.2.dirCache, pc := if c.slotAddr = 0 then .find0 else .check0 })
  else none

/-- A task that waits goes on, or one that does not makes a call. -/
def next (s : State) (op : Op) : Option State :=
  match op with
  | .resume i r table => s.waiting[i]?.bind fun (t, c) =>
      { s with waiting := s.waiting.eraseIdx i }.resume hash fuel t c r table
  | op =>
    if s.waiting.all (·.1 ≠ op.task) then s.call hash index fast client fuel op else none

def system : System State Op where
  start s := s.mem = setup ∧ (∀ t, s.dirCache t = setup.dir) ∧ (∀ i e, s.keyCache i e = none) ∧
    s.waiting = []
  next := next hash index fast client fuel

variable (K : Bytes → Prop)

/-- No call starts before the one before it has returned. -/
def InTurn (s : State) : Op → Prop
  | .resume .. => True
  | _ => s.waiting = []

/-- Keys are in `K`, memory is fresh, and no key is inserted that is there. -/
def Admits (s : State) : Op → Prop
  | .insert _ key _ pointer =>
    K key ∧ Fresh s.mem pointer ∧ search hash s.mem s.mem.dir key = none
  | .update _ key _ pointer | .rmw _ key _ pointer => K key ∧ Fresh s.mem pointer
  | .remove _ key | .search _ key _ => K key
  | .attach _ | .resize .. | .resume .. => True

/-- A key is inserted through an entry that still names its table. -/
def Current (s : State) : Op → Prop
  | .insert t key _ _ => (s.dirCache t).entry (hash key) = s.mem.dir.entry (hash key)
  | _ => True

/-- The call is made when no other is under way, with a key and a block that it may use. -/
def Proper (s : State) (op : Op) : Prop := InTurn s op ∧ Admits hash K s op

def Orderly (s : State) (op : Op) : Prop := Proper hash K s op ∧ Current hash s op

instance [DecidablePred K] (s : State) (op : Op) : Decidable (Admits hash K s op) := by
  cases op <;> unfold Admits <;> infer_instance

instance (s : State) (op : Op) : Decidable (Current hash s op) := by
  cases op <;> unfold Current <;> infer_instance

instance (s : State) (op : Op) : Decidable (InTurn s op) := by
  cases op <;> unfold InTurn <;> infer_instance

instance [DecidablePred K] (s : State) (op : Op) : Decidable (Orderly hash K s op) :=
  inferInstanceAs (Decidable ((_ ∧ _) ∧ _))

/-- Whenever no call is going on, what `fast_search` answers is what the slow path answers. -/
def Agrees (s : State) : Prop :=
  s.waiting = [] → ∀ t key locks value, K key →
    (fastSearch hash index fast s.mem (s.keyCache (client t)) locks key).1 = some value →
    (slowSearch hash s.mem (s.dirCache t) key).found.map Prod.snd = some value

end

/-! ### What holds between two calls -/

section
variable (hash : Bytes → Hashes) (K : Bytes → Prop)

def Known (m : Memory) (e : CacheEntry) : Prop :=
  (∃ b, m.block e.slot.pointer = some b ∧ b.key = e.key) ∧
    ∃ i < 2 ^ m.dir.globalDepth, ∃ b < kTotalBuckets,
      e.addr = bucketAddr (m.dir.subtables i).pointer b

/-- An `insert` that has to resize first. -/
structure Suspended (m : Memory) (c : InsertCall) : Prop where
  key : K c.key
  fp : c.newSlot.fp = getFingerprint (hash c.key).h0
  block : ∃ v, m.block c.newSlot.pointer = some ⟨c.key, v⟩
  absent : ∀ b, m.Stores b → b.key ≠ c.key
  unclaimed : c.slotAddr = 0

structure Inv (s : State) : Prop where
  tidy : Tidy hash K s.mem
  past : ∀ t, s.mem.dir.Past (s.dirCache t) ∧ (s.dirCache t).globalDepth ≤ s.mem.dir.globalDepth
  cached : ∀ i, (s.keyCache i).All (Known s.mem)
  waiting : s.waiting = [] ∨ ∃ t c, s.waiting = [(t, c)] ∧ Suspended hash K s.mem c

end

variable {hash : Bytes → Hashes} {K : Bytes → Prop} {index : Bytes → ℕ} {fast : Bool}
  {client : ℕ → ℕ} {fuel t : ℕ} {s s' : State} {m : Memory} {d : Directory}
  {e : CacheEntry} {c : InsertCall} {key : Bytes} {r : Resizer} {table : ℕ} {op : Op}

theorem Known.mono {m' : Memory} (h : Known m e) (hdir : m'.dir = m.dir)
    (hb : ∀ p b, m.block p = some b → m'.block p = some b) : Known m' e := by
  obtain ⟨⟨b, hpb, hk⟩, hat⟩ := h
  exact ⟨⟨b, hb _ b hpb, hk⟩, hdir ▸ hat⟩

theorem Inv.after (h : Inv hash K s) (hw : s.waiting = []) (ht : Tidy hash K m)
    (hdir : m.dir = s.mem.dir) (hb : ∀ p b, s.mem.block p = some b → m.block p = some b)
    (hd : d = s.dirCache t ∨ d = s.mem.dir) : Inv hash K (s.after t m d) := by
  refine ⟨ht, fun t' => ?_, fun i j e he => (h.cached i j e he).mono hdir hb, .inl hw⟩
  simp only [State.after, hdir]
  by_cases htt : t' = t
  · subst htt
    rw [update_self]
    rcases hd with rfl | rfl
    · exact h.past t'
    · exact ⟨h.tidy.extendible.past, le_refl _⟩
  · rw [update_of_ne htt]
    exact h.past t'

theorem Inv.modified {c : ModifyCall} (hK : PrefixFree K) (h : Inv hash K s)
    (hw : s.waiting = []) (hm : Tidy hash K m) (hdir : m.dir = s.mem.dir)
    (hb : ∀ p b, s.mem.block p = some b → m.block p = some b) (hkey : K c.key)
    (hpc : c.pc = .read0) (hc : c.dirCache = s.dirCache t)
    (hs : c.newSlot ≠ .null → c.newSlot.fp = getFingerprint (hash c.key).h0 ∧
      ∃ v, m.block c.newSlot.pointer = some ⟨c.key, v⟩)
    (hn : s.modified t (modifyRun hash fuel m c) = some s') : Inv hash K s' := by
  generalize hr : modifyRun hash fuel m c = r at hn
  unfold State.modified at hn
  split at hn
  · rename_i hend
    cases hn
    obtain ⟨hpast, hle⟩ := h.past t
    rw [← hdir, ← hc] at hpast hle
    obtain ⟨ht, hdir', hblock, hd⟩ := hm.modifyRun hK hkey hpc hpast hle hs hr hend
    rw [hdir, hc] at hd
    exact h.after hw ht (hdir'.trans hdir) (by rw [hblock]; exact hb) hd
  · cases hn

theorem Inv.inserted (hK : PrefixFree K) (hw : s.waiting = []) (hm : Tidy hash K m)
    (hpast : ∀ t, m.dir.Past (s.dirCache t) ∧ (s.dirCache t).globalDepth ≤ m.dir.globalDepth)
    (hc : m.dir.Past c.dirCache ∧ c.dirCache.globalDepth ≤ m.dir.globalDepth)
    (hcached : ∀ i, (s.keyCache i).All (Known m)) (hsus : Suspended hash K m c)
    (hpc : c.pc = .find0) (he : c.entry hash = m.dir.entry (hash c.key))
    (hn : s.inserted t (insertRun hash fuel m c) = some s') : Inv hash K s' := by
  have hdirs : ∀ t', m.dir.Past (update s.dirCache t c.dirCache t') ∧
      (update s.dirCache t c.dirCache t').globalDepth ≤ m.dir.globalDepth := by
    intro t'
    by_cases htt : t' = t
    · subst htt
      rwa [update_self]
    · rw [update_of_ne htt]
      exact hpast t'
  generalize hr : insertRun hash fuel m c = r at hn
  have hrun := hm.insertRun hK hsus.key hpc hsus.fp hsus.block hsus.absent he hr
  unfold State.inserted at hn
  split at hn
  · rename_i hret
    cases hn
    obtain ⟨hd, -, -, hcase⟩ := hrun (.inl hret)
    obtain ⟨-, ht, hdir, hblock⟩ := hcase.resolve_left fun hf => by cases hret.symm.trans hf.1
    refine ⟨ht, ?_, fun i j e hi => ?_, .inl hw⟩
    · simp only [State.after, hd, hdir]
      exact hdirs
    · exact (hcached i j e hi).mono hdir fun p b hb => by rw [State.after, hblock]; exact hb
  · split at hn
    · rename_i hfull
      cases hn
      obtain ⟨hd, hk, hns, hcase⟩ := hrun (.inr hfull)
      obtain ⟨-, hsa, hmem⟩ := hcase.resolve_right fun hr => by cases hfull.symm.trans hr.1
      simp only [State.after, hd, hmem]
      refine ⟨hm, hdirs, hcached, .inr ⟨_, _, by rw [hw], ?_⟩⟩
      exact ⟨hk ▸ hsus.key, by rw [hns, hk]; exact hsus.fp, by rw [hns, hk]; exact hsus.block,
        by rw [hk]; exact hsus.absent, hsa.trans hsus.unclaimed⟩
    · cases hn

/-! ### `search` and `resize` -/

theorem exists_table (hash : Bytes → Hashes) (hd : m.dir.Past d) (key : Bytes) :
    ∃ i < 2 ^ m.dir.globalDepth, (m.dir.subtables i).pointer = (d.entry (hash key)).pointer := by
  obtain ⟨-, i, hi, hp, -⟩ := hd (d.index (hash key)) (Nat.mod_lt _ (Nat.two_pow_pos _))
  exact ⟨i, hi, hp⟩

theorem known_of_searchPass {value : Bytes} (hK : PrefixFree K) (h : Tidy hash K m) (hkey : K key)
    (hd : m.dir.Past d)
    (hpass : searchPass hash m (d.entry (hash key)).pointer key = some (e, value)) : Known m e := by
  obtain ⟨rfl, hne, -, q, -, haddr, hs, b, hb, hread⟩ := searchPass_eq_some hpass
  obtain ⟨i, hi, hp⟩ := exists_table hash hd e.key
  rw [← hp] at haddr hs
  refine ⟨⟨b, hb, hK.key_eq hkey (h.keys b ?_) (hread ▸ rfl)⟩, i, hi, _, bucketNo_lt _ _,
    haddr⟩
  exact ⟨i, hi, _, _, _, isSlot_posAddr _ (hash e.key) q, hs ▸ hne, hs ▸ hb⟩

theorem Inv.search {locks : CacheLocks} (hK : PrefixFree K) (h : Inv hash K s)
    (hw : s.waiting = []) (hkey : K key)
    (hn : s.call hash index fast client fuel (.search t key locks) = some s') : Inv hash K s' := by
  cases hn
  let r := searchCall hash index fast s.mem (s.dirCache t) (s.keyCache (client t)) locks key
  have hfast : (fastSearch hash index fast s.mem (s.keyCache (client t)) locks key).2.All
      (Known s.mem) := (h.cached (client t)).fastSearch
  have hr : (r.2.1 = s.dirCache t ∨ r.2.1 = s.mem.dir) ∧ r.2.2.All (Known s.mem) := by
    obtain ⟨value, -, hr⟩ | ⟨-, hd, hc⟩ :=
      searchCall_cases hash index fast s.mem (s.dirCache t) (s.keyCache (client t)) locks key
    · rw [show r = _ from hr]
      exact ⟨.inl rfl, hfast⟩
    · refine ⟨?_, ?_⟩
      · rw [show r.2.1 = _ from hd]
        exact slowSearch_dirCache hash s.mem (s.dirCache t) key
      · rcases hc with hc | ⟨d', e, value, hd', hpass, hc⟩ <;> rw [show r.2.2 = _ from hc]
        · exact hfast
        · refine hfast.add (known_of_searchPass hK h.tidy hkey ?_ hpass)
          rcases hd' with rfl | rfl
          · exact (h.past t).1
          · exact h.tidy.extendible.past
  have hafter : Inv hash K (s.after t s.mem r.2.1) := h.after hw h.tidy rfl (fun _ _ hb => hb) hr.1
  refine ⟨hafter.tidy, hafter.past, fun i => ?_, hafter.waiting⟩
  by_cases hi : i = client t
  · subst hi
    simp only [update_self]
    exact hr.2
  · simp only [update_of_ne hi]
    exact h.cached i

theorem Inv.resized (h : Inv hash K s) (hc : Callable s.mem r table)
    (hpc : (resizeRun hash fuel s.mem r table).2.pc = .returned) :
    let p := resizeRun hash fuel s.mem r table
    Tidy hash K p.1 ∧ (∀ d, s.mem.dir.Past d ∧ d.globalDepth ≤ s.mem.dir.globalDepth →
        p.1.dir.Past d ∧ d.globalDepth ≤ p.1.dir.globalDepth) ∧
      (p.1.dir.Past p.2.dirCache ∧ p.2.dirCache.globalDepth ≤ p.1.dir.globalDepth) ∧
      (∀ hs, p.2.dirCache.entry hs = p.1.dir.entry hs) ∧
      (∀ e, Known s.mem e → Known p.1 e) ∧ p.1.block = s.mem.block ∧
      ∀ b, p.1.Stores b → s.mem.Stores b := by
  intro p
  have hm := h.tidy.extendible
  have hx : Splittable ⟨s.mem.dir, r.subtableIdx, table⟩ s.mem :=
    ⟨rfl, hc.idx_lt, hc.grows, hc.fresh⟩
  have hal : Alone ⟨s.mem.dir, r.subtableIdx, table⟩ hash (fun _ => table) s.mem p.1 p.2 :=
    (hm.alone hx ⟨hc.pc, rfl, hc.overflow, rfl⟩).runs (Machine.reaches_run fuel) hx.apart
      (hx.idle hm)
  have hm' := hal.extendible hm hx hpc
  obtain ⟨hdepth, hentry⟩ := hal.cache_eq hpc
  have hblock := (hal.exact hpc).block
  refine ⟨hal.tidy hm hx hpc h.tidy, fun d hd => ⟨hal.past hpc hm hx hd.1,
    hd.2.trans (hal.kept hpc).le⟩, ⟨fun i hi => ?_, hdepth.le⟩, fun hs => ?_, fun e he => ?_,
    hblock, fun b hb => hal.stores hm hx hpc hb⟩
  · rw [hdepth] at hi ⊢
    rw [hentry i hi]
    exact hm'.past i hi
  · have hidx : p.2.dirCache.index hs = p.1.dir.index hs := by
      rw [Directory.index, Directory.index, hdepth]
    rw [Directory.entry, Directory.entry, hidx]
    exact hentry _ (Nat.mod_lt _ (Nat.two_pow_pos _))
  · obtain ⟨⟨b, hb, hk⟩, i, hi, bk, hbk, haddr⟩ := he
    obtain ⟨-, j, hj, hp, -⟩ := hal.past hpc hm hx hm.past i hi
    exact ⟨⟨b, by rw [hblock]; exact hb, hk⟩, j, hj, bk, hbk, by rw [hp, haddr]⟩

/-! ### Whole runs -/

theorem Inv.call (hK : PrefixFree K) (h : Inv hash K s) (hw : s.waiting = [])
    (ho : Orderly hash K s op) (hn : s.call hash index fast client fuel op = some s') :
    Inv hash K s' := by
  cases op with
  | attach t =>
    cases hn
    exact h.after hw h.tidy rfl (fun _ _ hb => hb) (.inr rfl)
  | search t key locks => exact h.search hK hw ho.1.2 hn
  | insert t key value pointer =>
    obtain ⟨⟨-, hkey, ⟨-, hf⟩, habs⟩, he⟩ := ho
    refine Inv.inserted (c := insertCall hash (s.dirCache t) key value pointer) hK hw
      (h.tidy.writeBlock hf) h.past (h.past t) (fun i j e hi => ?_) ?_ rfl he hn
    · exact (h.cached i j e hi).mono rfl fun p b hb => writeBlock_of_some hf hb
    · refine ⟨hkey, rfl, ⟨value, update_self ..⟩, ?_, rfl⟩
      rintro b ⟨i, hi, n, j, a, hsl, hc⟩ rfl
      have ha : s.mem.Cell a := ⟨i, hi, n, j, hsl⟩
      rw [h.tidy.search_eq hK ha (h.tidy.holds_of_writeBlock hf ha hc)] at habs
      cases habs
  | update t key value pointer =>
    obtain ⟨-, hkey, -, hf⟩ := ho.1
    exact h.modified (c := (idleCall (s.dirCache t)).update hash key value pointer) hK hw
      (h.tidy.writeBlock hf) rfl (fun p b hb => writeBlock_of_some hf hb) hkey rfl rfl
      (fun _ => ⟨rfl, value, update_self ..⟩) hn
  | rmw t key transform pointer =>
    obtain ⟨-, hkey, -, hf⟩ := ho.1
    obtain ⟨hend, ⟨⟩⟩ := ite_none_right_eq_some.mp hn
    obtain ⟨ht, hdir, hb, hd⟩ := h.tidy.rmwRun hK hkey rfl rfl (h.past t).1 (h.past t).2 hf rfl hend
    exact h.after hw ht hdir hb hd
  | remove t key =>
    exact h.modified (c := (idleCall (s.dirCache t)).remove key) hK hw h.tidy rfl
      (fun _ _ hb => hb) ho.1.2 rfl rfl (fun hne => absurd rfl hne) hn
  | resize t r table =>
    obtain ⟨hc, ⟨⟩⟩ := ite_none_right_eq_some.mp hn
    obtain ⟨ht, hpast, hown, -, hknown, -⟩ := h.resized hc.1 hc.2
    refine ⟨ht, fun t' => ?_, fun i j e hi => hknown e (h.cached i j e hi), .inl hw⟩
    by_cases htt : t' = t
    · subst htt
      simp only [State.after, update_self]
      exact hown
    · simp only [State.after, update_of_ne htt]
      exact hpast _ (h.past t')
  | resume r table => cases hn

theorem Inv.resume (hK : PrefixFree K) (h : Inv hash K s) (hw : s.waiting = [])
    (hsus : Suspended hash K s.mem c)
    (hn : s.resume hash fuel t c r table = some s') : Inv hash K s' := by
  unfold State.resume at hn
  dsimp only at hn
  split at hn
  · rename_i hc
    obtain ⟨ht, hpast, hown, hentry, hknown, hblock, hstores⟩ := h.resized hc.1.2 hc.2
    rw [if_pos hsus.unclaimed] at hn
    let c' : InsertCall :=
      { c with dirCache := (resizeRun hash fuel s.mem r table).2.dirCache, pc := .find0 }
    refine Inv.inserted (c := c') hK hw ht (fun t' => hpast _ (h.past t')) hown
      (fun i j e hi => hknown e (h.cached i j e hi)) ?_ rfl (hentry _) hn
    exact ⟨hsus.key, hsus.fp, by rw [hblock]; exact hsus.block,
      fun b hb => hsus.absent b (hstores b hb), hsus.unclaimed⟩
  · cases hn

theorem next_of_quiet (hw : s.waiting = []) : (system hash index fast client fuel).next s op =
    s.call hash index fast client fuel op := by
  cases op <;> simp [system, next, hw, State.call]

theorem Inv.next (hK : PrefixFree K) (h : Inv hash K s) (ho : Orderly hash K s op)
    (hn : next hash index fast client fuel s op = some s') : Inv hash K s' := by
  rcases h.waiting with hw | ⟨t, c, hw, hsus⟩
  · exact h.call hK hw ho ((next_of_quiet hw).symm.trans hn)
  · have hop : ∃ i r table, op = .resume i r table := by
      have ha := ho.1.1
      cases op with
      | resume i r table => exact ⟨i, r, table, rfl⟩
      | _ => cases hw.symm.trans ha
    obtain ⟨i, r, table, rfl⟩ := hop
    obtain ⟨⟨t', c'⟩, hi, hn⟩ := bind_eq_some_iff.mp hn
    rw [hw] at hi hn
    cases i with
    | zero =>
      cases hi
      exact Inv.resume (s := { s with waiting := [] }) hK ⟨h.tidy, h.past, h.cached, .inl rfl⟩ rfl
        hsus hn
    | succ i => cases hi

theorem tidy_setup (hash : Bytes → Hashes) (K : Bytes → Prop) : Tidy hash K setup := by
  have hno : ∀ a c, ¬ setup.Holds a c := fun a c hc => hc.1 rfl
  refine ⟨extendible_setup hash, ?_, fun i _ b j a c _ hc => absurd hc (hno a c),
    fun a _ c _ _ _ hc => absurd hc (hno a c)⟩
  rintro c ⟨i, -, b, j, a, -, hc⟩
  exact absurd hc (hno a c)

theorem inv_of_runWith (hK : PrefixFree K)
    (h : (system hash index fast client fuel).RunWith (Orderly hash K) s) : Inv hash K s := by
  refine h.invariant ?_ fun s op s' hs ho hn => hs.next hK ho hn
  rintro s ⟨hm, hd, hc, hw⟩
  refine ⟨hm ▸ tidy_setup hash K, fun t => ?_, fun i j e he => ?_, .inl hw⟩
  · rw [hm, hd t]
    exact ⟨(extendible_setup hash).past, le_refl _⟩
  · cases (hc i j).symm.trans he

/-- `fast_search` answers as the slow path for all hash functions, when calls do not overlap and
keys are inserted through current entries. -/
theorem agrees_of_orderly (hK : PrefixFree K)
    (h : (system hash index fast client fuel).RunWith (Orderly hash K) s) :
    Agrees hash index fast client K s := by
  intro _ t key locks value hkey hf
  have hinv := inv_of_runWith hK h
  have hm := hinv.tidy.extendible
  obtain ⟨e, he, rfl, hne, hv, j, hj, hs⟩ := fastSearch_eq_some hf
  obtain ⟨⟨b, hb, hk⟩, i, hi, n, hn, haddr⟩ := hinv.cached _ _ e he
  rw [hb, bind_some, ← hk, readBlock_self] at hv
  cases hv
  have hcell : s.mem.Cell (e.addr + 8 + 8 * j) := ⟨i, hi, n, j, hn, hj, by rw [haddr]; rfl⟩
  have hholds : s.mem.Holds (e.addr + 8 + 8 * j) b := ⟨hs ▸ hne, hs ▸ hb⟩
  rw [slowSearch_found, hm.search_past hK.together hinv.tidy.keys hkey (hinv.past t).1, ← hk]
  exact hinv.tidy.search_eq hK hcell hholds

def startState : State := ⟨setup, fun _ => setup.dir, fun _ _ => none, []⟩

def someCalls : List Op :=
  [.insert 0 [111] [97] 64, .search 1 [111] ⟨true, true, true⟩, .update 2 [111] [98] 128,
    .search 1 [111] ⟨true, true, true⟩, .rmw 0 [111] (· ++ [99]) 192,
    .search 2 [111] ⟨true, true, true⟩]

theorem agrees_someCalls : ∃ s, (system hashFunction List.length true (fun _ => 0) 5).RunWith
        (Orderly hashFunction (· = [111])) s ∧ s.waiting = [] ∧
      (fastSearch hashFunction List.length true s.mem (s.keyCache 0) ⟨true, true, true⟩ [111]).1 =
        some [98, 99] ∧ Agrees hashFunction List.length true (fun _ => 0) (· = [111]) s := by
  let S := system hashFunction List.length true (fun _ => 0) 5
  have hK : PrefixFree (· = ([111] : Bytes)) := prefixFree_single (by decide)
  have hstart : S.start startState := ⟨rfl, fun _ => rfl, fun _ _ => rfl, rfl⟩
  obtain ⟨s, -, hrun, hw, hf⟩ := S.exists_runWith (Orderly hashFunction (· = [111]))
    (fun s => s.waiting = [] ∧ (fastSearch hashFunction List.length true s.mem (s.keyCache 0)
      ⟨true, true, true⟩ [111]).1 = some [98, 99]) hstart someCalls (by decide +kernel)
    (by decide +kernel)
  exact ⟨s, hrun, hw, hf, agrees_of_orderly hK hrun⟩

end Fusa.Table.Tasks

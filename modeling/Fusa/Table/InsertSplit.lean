import Fusa.Table.AtRest
import Fusa.Table.Insert

/-! One `insert` in a subtable that is being split: what the call knows before each of its
operations. -/
namespace Fusa.Table
open Function

section
variable (x : Split) (hash : Bytes → Hashes) (K : Bytes → Prop) (key : Bytes)

/-- The entry of the key in a cached directory: that before or that after the split. -/
def Split.Cached (p : Progress) (e : SubTableEntry) : Prop :=
  (e.localDepth = x.depth ∧ e.pointer = x.oldTable) ∨
    (e.localDepth = x.depth + 1 ∧ e.pointer = x.tableOf (hash key).h0.toNat ∧ p ≠ .before)

/-- The call has claimed `slotAddr`: alone in the old table, or in the new one after the split. -/
structure Claimed (m : Memory) (p : Progress) (c : InsertCall) : Prop where
  old : (c.entry hash).pointer = x.oldTable → (∃ i j, IsSlot x.oldTable i j c.slotAddr) ∧
    ∀ i j a, IsSlot x.oldTable i j a → m.HoldsKey a key → a = c.slotAddr
  new : (c.entry hash).pointer = x.newTable → p = .after ∧
    ∀ i j, IsSlot x.newTable i j c.slotAddr → m.HoldsKey c.slotAddr key

def Sole (m : Memory) (c : InsertCall) (a : ℕ) : Prop :=
  ((c.entry hash).pointer = x.oldTable → a = c.slotAddr) ∧
    ((c.entry hash).pointer = x.newTable → m.HoldsKey a key)

def Seen (m : Memory) (c : InsertCall) (q : ℕ) : Prop :=
  c.buf.slot q ≠ .null → ∃ b, m.block (c.buf.slot q).pointer = some b ∧ K b.key ∧
    (b.key = key → Sole x hash key m c (c.addr hash q))

/-- What a bucket header tells the call: it sends only a key that moves to another table. -/
def Told (p : Progress) (c : InsertCall) (h : Header) : Prop :=
  stale (hash key) (c.entry hash) h → x.Moves hash key ∧ p ≠ .before ∧
    (c.entry hash).pointer = x.oldTable

/-- The call has found its slot in a bucket that was split, and goes after its key. -/
structure Following (p : Progress) (c : InsertCall) : Prop where
  moves : x.Moves hash key
  after : p = .after
  base : c.base = x.oldTable
  slot : ∃ i j, IsSlot x.oldTable i j c.slotAddr

/-- The words of `move_to_bucket`'s reads, all of keys that move. -/
def Foreign (m : Memory) (c : InsertCall) (q : ℕ) : Prop :=
  c.buf.slot q ≠ .null → x.Moving hash m.block (c.buf.slot q)

def AtInsert (m : Memory) (p : Progress) (c : InsertCall) : InsertPc → Prop
  | .idle | .find0 | .full | .returned => True
  | .find1 => c.base = (c.entry hash).pointer
  | .claim q => c.base = (c.entry hash).pointer ∧ q < 28 ∧ c.slotAddr = c.addr hash q ∧
      c.buf.slot q = .null
  | .check0 => Claimed x hash key m p c
  | .check1 => Claimed x hash key m p c ∧ c.base = (c.entry hash).pointer ∧
      (∀ q, posGroup q = 0 → Seen x hash K key m c q) ∧
      ∀ i, i % 2 = 0 → Told x hash key p c (c.buf.header i)
  | .moveDir => Following x hash key p c
  | .move0 => Following x hash key p c ∧ (c.entry hash).pointer = x.newTable
  | .move1 => Following x hash key p c ∧ (c.entry hash).pointer = x.newTable ∧
      ∀ q, posGroup q = 0 → Foreign x hash m c q
  | .moveClaim q => Following x hash key p c ∧ (c.entry hash).pointer = x.newTable ∧ q < 28 ∧
      c.buf.slot q = .null ∧ ∀ q, Foreign x hash m c q
  | .moveClear => Following x hash key p c ∧ (c.entry hash).pointer = x.newTable ∧
      ∀ q, Foreign x hash m c q
  | .delete _ => False

/-- The call with its arguments, its copy of the directory and its block. -/
structure Inserting (m : Memory) (p : Progress) (c : InsertCall) : Prop where
  cached : x.Cached hash key p (c.dirCache.entry (hash key))
  args : c.pc ≠ .idle → c.key = key ∧ 0 ∉ c.value
  newSlot : c.pc ≠ .idle → c.newSlot ≠ .null ∧
    m.block c.newSlot.pointer = some ⟨key, c.value⟩ ∧
    c.newSlot.fp = getFingerprint (hash key).h0
  at_pc : AtInsert x hash K key m p c c.pc

end

variable {x : Split} {hash : Bytes → Hashes} {K : Bytes → Prop} {key : Bytes} {alloc : ℕ → ℕ}
  {m m' : Memory} {p p' : Progress} {r r' : Resizer} {c c' : InsertCall}
  {old new : ℕ → ℕ → Slot} {map : Bytes → Option Bytes} {e : SubTableEntry} {q : ℕ}

theorem Apart.ne_table {a b : ℕ} (h : Apart a b) : a ≠ b := by
  rintro rfl
  have : 0 < bucketBytes * kTotalBuckets := by decide
  unfold Apart at h
  omega

theorem Split.Cached.cases (h : x.Cached hash key p e) :
    (e.pointer = x.oldTable ∧ (x.Moves hash key → e.localDepth = x.depth)) ∨
      (e.pointer = x.newTable ∧ x.Moves hash key ∧ e.localDepth = x.depth + 1 ∧ p ≠ .before) := by
  rcases h with ⟨hd, hp⟩ | ⟨hd, hp, hne⟩
  · exact .inl ⟨hp, fun _ => hd⟩
  · by_cases hm : x.Moves hash key
    · exact .inr ⟨hp.trans (Split.tableOf_of_moves hm), hm, hd, hne⟩
    · exact .inl ⟨hp.trans (Split.tableOf_of_not_moves hm), fun h => absurd h hm⟩

theorem Split.Cached.mono (h : x.Cached hash key p e) (hp : p ≠ .before → p' ≠ .before) :
    x.Cached hash key p' e :=
  h.imp id fun ⟨hd, ht, hne⟩ => ⟨hd, ht, hp hne⟩

theorem Split.progress_of_fixed {pc : ResizePc} {i : ℕ} (h : x.fixed pc i) :
    pc.progress ≠ .before := by
  cases pc <;> simp_all [Split.fixed, ResizePc.progress, ResizePc.early, ResizePc.sizing]

theorem Split.Control.cached (h : x.Control alloc m.dir r) (hu : m.dir.locked = false)
    (hmem : x.Member hash key) : x.Cached hash key r.pc.progress (m.dir.entry (hash key)) := by
  obtain ⟨hd, hp⟩ := h.entry_eq hu hmem
  by_cases hf : x.fixed r.pc (m.dir.index (hash key))
  · rw [if_pos hf] at hd hp
    exact .inr ⟨hd, hp, x.progress_of_fixed hf⟩
  · rw [if_neg hf] at hd hp
    exact .inl ⟨hd, hp⟩

theorem ResizePc.progress_eq_after {pc : ResizePc} (h : pc.progress = .after) : pc = .returned := by
  cases pc <;> simp_all [ResizePc.progress]

theorem Splitting.entry_after (h : Splitting x hash K alloc m r map)
    (hp : r.pc.progress = .after) (hmem : x.Member hash key) (hm : x.Moves hash key) :
    m.dir.locked = false ∧ (m.dir.entry (hash key)).pointer = x.newTable := by
  have hpc := ResizePc.progress_eq_after hp
  have hu := (h.control.planned (hpc ▸ rfl)).dir.unlocked
  refine ⟨hu, ?_⟩
  rw [(h.control.entry_eq hu hmem).2, hpc, if_pos (by rfl), Split.tableOf_of_moves hm]

/-! ### Reads -/

theorem Memory.HoldsKey.of_update {a y : ℕ} {s : Slot} (hy : y ≠ a)
    (h : { m with slot := update m.slot a s }.HoldsKey y key) : m.HoldsKey y key := by
  obtain ⟨b, hb, hk⟩ := h
  rcases holds_update.mp hb with ⟨rfl, -⟩ | ⟨-, hb⟩
  · exact absurd rfl hy
  · exact ⟨b, hb, hk⟩

theorem Headers.told (h : Headers x m.header r)
    (hmem : x.Member hash key) (hcach : x.Cached hash key r.pc.progress (c.entry hash))
    (hcl : Claimed x hash key m r.pc.progress c) {b : ℕ} (hb : b < kTotalBuckets) :
    Told x hash key r.pc.progress c (m.header (bucketAddr (c.entry hash).pointer b)) := by
  intro hst
  simp only [stale, ne_eq, decide_eq_true_eq] at hst
  rcases hcach.cases with ⟨hp, -⟩ | ⟨hp, -, hd, -⟩
  · rw [hp, h.old b hb] at hst
    have hmark : r.pc.progress.marked b := by
      by_contra hf
      simp only [Bool.not_eq_true] at hf
      rw [hf] at hst
      exact hst.2 hmem.symm
    rw [hmark] at hst
    refine ⟨(Split.class_cases hmem).resolve_left fun ho => hst.2 ho.symm, ?_, hp⟩
    intro hbefore
    rw [hbefore] at hmark
    cases hmark
  · have hpc := ResizePc.progress_eq_after (hcl.new hp).1
    rw [hp, h.new (hpc ▸ rfl) b hb] at hst
    exact absurd hd.symm hst.1

theorem InsertCall.isSlot_addr {base : ℕ} (h : c.base = base) (q : ℕ) :
    IsSlot base (bucketNo (hash c.key) (q / kAssociatedWays)) (q % kAssociatedWays)
      (c.addr hash q) := by
  subst h
  exact isSlot_posAddr _ _ q

theorem Claimed.seen (h : Slots x hash K m p old new map) (hcl : Claimed x hash key m p c)
    (hbase : c.base = (c.entry hash).pointer)
    (hq : c.buf.slot q = m.slot (c.addr hash q)) : Seen x hash K key m c q := by
  intro hne
  rw [hq] at hne ⊢
  obtain ⟨b, hb, hK⟩ := h.allocated _ hne
  refine ⟨b, hb, hK, fun hk => ⟨fun hp => ?_, fun _ => ⟨b, ⟨hne, hb⟩, hk⟩⟩⟩
  exact (hcl.old hp).2 _ _ _ (c.isSlot_addr (hbase.trans hp) q) ⟨b, ⟨hne, hb⟩, hk⟩

/-- The positions that the loop over duplicates takes are all at one address. -/
theorem Claimed.check_eq (hK : PrefixFree K) (hkey : K key) (hck : c.key = key)
    (h : Slots x hash K m p old new map) (hcach : x.Cached hash key p (c.entry hash))
    (hcl : Claimed x hash key m p c) (hbase : c.base = (c.entry hash).pointer)
    (hseen : ∀ q, Seen x hash K key m c q) : c.check hash m =
      if stale (hash key) (c.entry hash) (c.buf.header c.slotBucket) then .moveDir
      else .returned := by
  have hsole : ∀ q, c.accepts hash m q → Sole x hash key m c (c.addr hash q) := by
    intro q hq
    simp only [InsertCall.accepts, decide_eq_true_eq] at hq
    obtain ⟨hne, -, hown | hblock⟩ := hq
    · rw [hown]
      refine ⟨fun _ => rfl, fun hp => ?_⟩
      have hsl : IsSlot x.newTable _ _ (c.addr hash q) := c.isSlot_addr (hbase.trans hp) q
      exact (hcl.new hp).2 _ _ (hown ▸ hsl)
    · obtain ⟨b, hb, hbK, himp⟩ := hseen q hne
      rw [hb, hck] at hblock
      exact himp (hK.key_eq hkey hbK hblock)
  have hone : ∀ q q', c.accepts hash m q → c.accepts hash m q' →
      c.addr hash q = c.addr hash q' := by
    intro q q' hq hq'
    rcases hcach.cases with ⟨hp, -⟩ | ⟨hp, -⟩
    · rw [(hsole q hq).1 hp, (hsole q' hq').1 hp]
    · obtain ⟨b, hb, hbk⟩ := (hsole q hq).2 hp
      obtain ⟨b', hb', hbk'⟩ := (hsole q' hq').2 hp
      exact h.represents.unique ⟨hb, .inr ⟨_, _, c.isSlot_addr (hbase.trans hp) q⟩⟩
        ⟨hb', .inr ⟨_, _, c.isSlot_addr (hbase.trans hp) q'⟩⟩ (hbk.trans hbk'.symm)
  have hlen : (c.duplicates hash m).hits.length ≤ 1 :=
    LeastScan.length_hits_le_one nodup_positions fun q _ q' _ => hone q q'
  rw [InsertCall.check, if_pos hlen, hck]

/-! ### Steps of the resize -/

theorem Claimed.resize (h : Claimed x hash key m p c) (hp : p ≠ .after)
    (hblock : m'.block = m.block)
    (hold : ∀ i j a, IsSlot x.oldTable i j a → m'.slot a = m.slot a ∨ m'.slot a = .null) :
    Claimed x hash key m' p' c := by
  refine ⟨fun hT => ⟨(h.old hT).1, fun i j a ha hk => ?_⟩, fun hN => absurd (h.new hN).1 hp⟩
  obtain ⟨b, hb, hbk⟩ := hk
  rcases hold i j a ha with hs | hs
  · refine (h.old hT).2 i j a ha ⟨b, ?_, hbk⟩
    rwa [Memory.Holds, hs, hblock] at hb
  · exact absurd hs hb.1

theorem Inserting.resize (h : Inserting x hash K key m r.pc.progress c)
    (hs : Splitting x hash K alloc m r map) (hap : Apart x.oldTable x.newTable)
    (hn : resizeStep hash alloc m r = some (m', r')) :
    Inserting x hash K key m' r'.pc.progress c := by
  have hb := resizeStep_block hn
  have hne : r.pc.progress ≠ .after := by
    intro hp
    rw [resizeStep, ResizePc.progress_eq_after hp] at hn
    cases hn
  have hold : ∀ i j a, IsSlot x.oldTable i j a → m'.slot a = m.slot a ∨ m'.slot a = .null :=
    fun i j a ha => (hs.oldSlot_step hn hap ha).imp id And.right
  have hbefore := hs.progress_ne_before hn
  have hat : ∀ pc, AtInsert x hash K key m r.pc.progress c pc →
      AtInsert x hash K key m' r'.pc.progress c pc := by
    intro pc hat
    cases pc with
    | idle | find0 | full | returned => trivial
    | find1 | claim => exact hat
    | check0 => exact Claimed.resize hat hne hb hold
    | check1 =>
      obtain ⟨hcl, hbase, hseen, htold⟩ := hat
      refine ⟨hcl.resize hne hb hold, hbase, fun q hq hnn => ?_, fun i hi hst => ?_⟩
      · obtain ⟨b, hbb, hK, hsole⟩ := hseen q hq hnn
        refine ⟨b, hb ▸ hbb, hK, fun hk => ⟨(hsole hk).1, fun hN => ?_⟩⟩
        exact absurd (hcl.new hN).1 hne
      · obtain ⟨hm, hp, hT⟩ := htold i hi hst
        exact ⟨hm, hbefore hp, hT⟩
    | moveDir => exact absurd (Following.after hat) hne
    | move0 | move1 | moveClaim | moveClear => exact absurd hat.1.after hne
    | delete l => exact hat.elim
  exact ⟨h.cached.mono hbefore, h.args, hb ▸ h.newSlot, hat _ h.at_pc⟩

theorem Inserting.at_of {pc : InsertPc} (h : Inserting x hash K key m p c) (hpc : c.pc = pc) :
    AtInsert x hash K key m p c pc :=
  hpc ▸ h.at_pc

theorem Inserting.cached_entry (h : Inserting x hash K key m p c) (hck : c.key = key) :
    x.Cached hash key p (c.entry hash) := by
  rw [InsertCall.entry, hck]
  exact h.cached

/-! ### Steps of the call -/

theorem Inserting.goOn (h : Inserting x hash K key m p c) (hi : c.pc ≠ .idle)
    (hb : m'.block = m.block) (hd : c'.dirCache = c.dirCache) (hk : c'.key = c.key)
    (hv : c'.value = c.value) (hs : c'.newSlot = c.newSlot)
    (hat : AtInsert x hash K key m' p c' c'.pc) : Inserting x hash K key m' p c' := by
  refine ⟨?_, fun _ => ?_, fun _ => ?_, hat⟩
  · rw [hd]
    exact h.cached
  · rw [hk, hv]
    exact h.args hi
  · rw [hs, hv, hb]
    exact h.newSlot hi

theorem Following.claimed (h : Following x hash key p c) (hap : Apart x.oldTable x.newTable)
    (hp : (c.entry hash).pointer = x.newTable) : Claimed x hash key m p c := by
  obtain ⟨i, j, hsl⟩ := h.slot
  refine ⟨fun hT => absurd (hT.symm.trans hp) hap.ne_table, fun _ => ⟨h.after, ?_⟩⟩
  exact fun i' j' hsl' => (hap.ne hsl hsl').elim

theorem Slots.foreign {base : ℕ} (h : Slots x hash K m p old new map)
    (hp : base = x.newTable) (hs : Hashes) (q : ℕ)
    (hq : c.buf.slot q = m.slot (posAddr base hs q)) : Foreign x hash m c q := by
  intro hne
  rw [hq] at hne ⊢
  obtain ⟨b, hb, -⟩ := h.allocated _ hne
  subst hp
  exact .of_holds ⟨hne, hb⟩ (h.moved _ _ _ b (isSlot_posAddr _ _ q) ⟨hne, hb⟩)

theorem claim_cases (hs : Splitting x hash K alloc m r map) (hmem : x.Member hash key)
    (hcach : x.Cached hash key r.pc.progress e) (hrely : x.Moves hash key → ¬ r.pc.progress.active ∧
      (r.pc = .returned → e.pointer = (m.dir.entry (hash key)).pointer)) :
    (e.pointer = x.oldTable ∧ (¬ x.Moves hash key ∨ r.pc.progress = .before)) ∨
      (e.pointer = x.newTable ∧ x.Moves hash key ∧ r.pc.progress = .after) := by
  have hends : ¬ r.pc.progress.active → r.pc.progress = .before ∨ r.pc.progress = .after := by
    cases r.pc.progress <;> simp [Progress.active]
  by_cases hm : x.Moves hash key
  · obtain ⟨hact, hdir⟩ := hrely hm
    rcases hends hact with hp | hp
    · rcases hcach.cases with ⟨hT, -⟩ | ⟨-, -, -, hne⟩
      · exact .inl ⟨hT, .inr hp⟩
      · exact absurd hp hne
    · refine .inr ⟨?_, hm, hp⟩
      rw [hdir (ResizePc.progress_eq_after hp)]
      exact (hs.entry_after hp hmem hm).2
  · rcases hcach.cases with ⟨hT, -⟩ | ⟨-, hm', -⟩
    · exact .inl ⟨hT, .inl hm⟩
    · exact absurd hm' hm

/-- Resize and call on a memory that stores `map`; the key is absent until it is claimed. -/
structure Insertion (x : Split) (hash : Bytes → Hashes) (K : Bytes → Prop) (key : Bytes)
    (alloc : ℕ → ℕ) (m : Memory) (r : Resizer) (c : InsertCall) (map : Bytes → Option Bytes) :
    Prop where
  splitting : Splitting x hash K alloc m r map
  call : Inserting x hash K key m r.pc.progress c
  absent : c.pc.claimed = false → c.pc ≠ .full → map key = none
  stored : c.pc.claimed → map key = some c.value

/-- For a key that moves neither the CAS on the slot nor the last read of the check falls into the
resize, and afterwards the CAS is on the directory's table. -/
def Undisturbed (x : Split) (hash : Bytes → Hashes) (key : Bytes) (m : Memory) (r : Resizer)
    (c : InsertCall) : Prop :=
  x.Moves hash key → (c.pc = .check1 → ¬ r.pc.progress.active) ∧
    ∀ q, c.pc = .claim q → ¬ r.pc.progress.active ∧
      (r.pc = .returned → c.base = (m.dir.entry (hash key)).pointer)

theorem Slots.not_holdsKey {i j a : ℕ} (h : Slots x hash K m p old new map)
    (hmap : map key = none) (ha : IsSlot x.oldTable i j a)
    (hp : ¬ x.Moves hash key ∨ p = .before) : ¬ m.HoldsKey a key := by
  rintro ⟨b, hb, rfl⟩
  have hcount : x.Counts hash m p a b := by
    refine ⟨hb, .inl ⟨i, j, ha, hp.imp id ?_⟩⟩
    rintro rfl
    simp [Progress.copied]
  rw [h.represents.map_key hcount] at hmap
  cases hmap

theorem Insertion.moveClear (hap : Apart x.oldTable x.newTable)
    (h : Insertion x hash K key alloc m r c map) (hpc : c.pc = .moveClear) :
    Insertion x hash K key alloc (m.casSlot c.slotAddr (c.buf.slot c.slotPos) .null) r
      { c with buf := c.buf.setSlot c.slotPos (m.slot c.slotAddr), pc := .check0 } map := by
  have hidle : c.pc ≠ .idle := by simp [hpc]
  obtain ⟨hfol, hN, hforeign⟩ := h.call.at_of hpc
  obtain ⟨i, j, hsl⟩ := hfol.slot
  have hslots := h.splitting.slots
  have hslots' : Slots x hash K (m.casSlot c.slotAddr (c.buf.slot c.slotPos) .null)
      r.pc.progress r.oldSlot r.newSlot map := by
    by_cases hm : m.slot c.slotAddr = c.buf.slot c.slotPos
    · rw [casSlot_of_eq hm]
      rw [hfol.after] at hslots ⊢
      refine hslots.setMoved hap hsl (fun b hb => ?_) fun hne => absurd rfl hne
      obtain ⟨-, b', hb', hmv⟩ := hforeign c.slotPos (hm ▸ hb.1)
      rw [← hm] at hb'
      rwa [hb.unique ⟨hb.1, hb'⟩]
    · rwa [casSlot_of_ne hm]
  have hclaimed : Claimed x hash key (m.casSlot c.slotAddr (c.buf.slot c.slotPos) .null)
      r.pc.progress c := hfol.claimed hap hN
  exact ⟨⟨h.splitting.control, h.splitting.headers, hslots'⟩,
    h.call.goOn hidle rfl rfl rfl rfl rfl ⟨hclaimed.old, hclaimed.new⟩, fun hf => (by cases hf),
    fun _ => h.stored (hpc ▸ rfl)⟩

section
variable (hmem : x.Member hash key) (h : Insertion x hash K key alloc m r c map)
include hmem h

theorem Insertion.at_check0 (hpc : c.pc = .check0) : AtInsert x hash K key m r.pc.progress
      { c with base := (c.entry hash).pointer, buf := c.read hash m 0, pc := .check1 } .check1 := by
  have hcl := h.call.at_of hpc
  obtain ⟨hck, -⟩ := h.call.args (by simp [hpc])
  have hcach := h.call.cached_entry hck
  refine ⟨⟨hcl.old, hcl.new⟩, rfl, fun q hq => ?_, fun i hi => ?_⟩
  · exact Claimed.seen h.splitting.slots ⟨hcl.old, hcl.new⟩ rfl (if_pos hq)
  · have hhead : (c.read hash m 0).header i =
        m.header (bucketAddr (c.entry hash).pointer (bucketNo (hash c.key) i)) := if_pos hi
    simp only [hhead]
    exact h.splitting.headers.told hmem hcach hcl (bucketNo_lt _ _)

theorem Insertion.at_check1 (hK : PrefixFree K) (hkey : K key)
    (hu : Undisturbed x hash key m r c) (hpc : c.pc = .check1) :
    let c₁ := { c with buf := c.read hash m 1 }
    AtInsert x hash K key m r.pc.progress { c₁ with pc := c₁.check hash m } (c₁.check hash m) ∧
      (c₁.check hash m).claimed := by
  intro c₁
  obtain ⟨hcl, hbase, hseen, htold⟩ := h.call.at_of hpc
  obtain ⟨hck, -⟩ := h.call.args (by simp [hpc])
  have hcach := h.call.cached_entry hck
  have hcl₁ : Claimed x hash key m r.pc.progress c₁ := ⟨hcl.old, hcl.new⟩
  have hseen₁ : ∀ q, Seen x hash K key m c₁ q := by
    intro q
    by_cases hq : posGroup q = 1
    · refine hcl₁.seen h.splitting.slots hbase ?_
      have hslot : c₁.buf.slot q = m.slot (posAddr (c.entry hash).pointer (hash c.key) q) :=
        if_pos hq
      rw [hslot, ← hbase]
      rfl
    · have hslot : c₁.buf.slot q = c.buf.slot q := if_neg hq
      have hold := hseen q ((posGroup_lt q).resolve_right hq)
      unfold Seen at hold ⊢
      rwa [hslot]
  have htold₁ : ∀ i, Told x hash key r.pc.progress c (c₁.buf.header i) := by
    intro i
    by_cases hi : i % 2 = 1
    · have hhead : c₁.buf.header i =
          m.header (bucketAddr (c.entry hash).pointer (bucketNo (hash c.key) i)) := if_pos hi
      rw [hhead]
      exact h.splitting.headers.told hmem hcach hcl (bucketNo_lt _ _)
    · have hhead : c₁.buf.header i = c.buf.header i := if_neg hi
      rw [hhead]
      exact htold i (by omega)
  rw [Claimed.check_eq (c := c₁) hK hkey hck h.splitting.slots hcach hcl₁ hbase hseen₁]
  split
  · rename_i hst
    obtain ⟨hmv, hne, hT⟩ := htold₁ _ hst
    have hafter : r.pc.progress = .after := by
      have hact := (hu hmv).1 hpc
      cases hp : r.pc.progress <;> simp_all [Progress.active]
    exact ⟨⟨hmv, hafter, hbase.trans hT, (hcl.old hT).1⟩, rfl⟩
  · exact ⟨trivial, rfl⟩

variable (hap : Apart x.oldTable x.newTable) (hkey : K key)
include hap hkey

theorem Insertion.claim (hu : Undisturbed x hash key m r c)
    (hpc : c.pc = .claim q) (hm : m.slot c.slotAddr = c.buf.slot q) : Insertion x hash K key alloc
      { m with slot := update m.slot c.slotAddr c.newSlot } r
      { c with buf := c.buf.setSlot q (m.slot c.slotAddr), pc := .check0 }
      (update map key (some c.value)) := by
  have hidle : c.pc ≠ .idle := by simp [hpc]
  obtain ⟨hbase, hq, haddr, hnull⟩ := h.call.at_of hpc
  obtain ⟨hck, -⟩ := h.call.args hidle
  obtain ⟨hne, hblock, hfp⟩ := h.call.newSlot hidle
  have hmap : map key = none := h.absent (hpc ▸ rfl) (by simp [hpc])
  have hslots := h.splitting.slots
  have hsl : IsSlot (c.entry hash).pointer (bucketNo (hash c.key) (q / kAssociatedWays))
      (q % kAssociatedWays) (c.addr hash q) := c.isSlot_addr hbase q
  rw [← haddr, hck] at hsl
  have hbucket : ∃ k < 4, bucketNo (hash key) k = bucketNo (hash key) (q / kAssociatedWays) :=
    ⟨q / kAssociatedWays, by simp only [kAssociatedWays]; omega, rfl⟩
  have hcach := h.call.cached_entry hck
  have hslot : x.Fits hash K c.slotAddr c.newSlot key ∧
      x.Here hash r.pc.progress c.slotAddr key ∧
      (∀ i n, IsSlot x.newTable i n c.slotAddr → ¬ r.pc.progress.unused i n) ∧
      Claimed x hash key { m with slot := update m.slot c.slotAddr c.newSlot }
        r.pc.progress c := by
    rcases claim_cases h.splitting hmem hcach fun hmv =>
      ((hu hmv).2 q hpc).imp id (hbase ▸ ·) with ⟨hT, hp⟩ | ⟨hN, hmv, hp⟩
    · rw [hT] at hsl
      refine ⟨⟨hmem, hkey, hfp, _, _, .inl hsl, hbucket⟩, .inl ⟨_, _, hsl, hp.imp id ?_⟩,
        fun i n hsl' => (hap.ne hsl hsl').elim, fun _ => ⟨⟨_, _, hsl⟩, fun i j a ha hk => ?_⟩,
        fun hN => absurd (hT.symm.trans hN) hap.ne_table⟩
      · intro hp
        simp [hp, Progress.copied]
      · by_contra hne
        exact hslots.not_holdsKey hmap ha hp (hk.of_update hne)
    · rw [hN] at hsl
      refine ⟨⟨hmem, hkey, hfp, _, _, .inr ⟨hsl, hmv⟩, hbucket⟩, .inr ⟨_, _, hsl⟩, fun i n _ => ?_,
        fun hT => absurd (hT.symm.trans hN) hap.ne_table, fun _ => ⟨hp, fun i j _ => ?_⟩⟩
      · simp [hp, Progress.unused]
      · exact ⟨⟨key, c.value⟩, holds_update.mpr (.inl ⟨rfl, hne, hblock⟩), rfl⟩
  obtain ⟨hfits, hhere, hunused, hclaimed⟩ := hslot
  have hslots' := hslots.claim (b := ⟨key, c.value⟩) hap (hm.trans hnull) hne hblock hfits hmap
    hhere (fun hmv => ((hu hmv).2 q hpc).1) hunused
  exact ⟨⟨h.splitting.control, h.splitting.headers, hslots'⟩,
    h.call.goOn hidle rfl rfl rfl rfl rfl ⟨hclaimed.old, hclaimed.new⟩, fun hf => (by cases hf),
    fun _ => update_self ..⟩

/-- The call puts its block into the old table again, where its key no longer counts. -/
theorem Insertion.moveClaim (hpc : c.pc = .moveClaim q)
    (hm : m.slot (c.addr hash q) = c.buf.slot q) : Insertion x hash K key alloc
      { m with slot := update m.slot (c.addr hash q) c.newSlot } r
      { c with buf := c.buf.setSlot q (m.slot (c.addr hash q)), pc := .moveClear } map := by
  have hidle : c.pc ≠ .idle := by simp [hpc]
  obtain ⟨hfol, hN, hq, hnull, hforeign⟩ := h.call.at_of hpc
  obtain ⟨hck, -⟩ := h.call.args hidle
  obtain ⟨hne, hblock, hfp⟩ := h.call.newSlot hidle
  have hslots := h.splitting.slots
  rw [hfol.after] at hslots
  have hsl : IsSlot x.oldTable (bucketNo (hash c.key) (q / kAssociatedWays))
      (q % kAssociatedWays) (c.addr hash q) := c.isSlot_addr hfol.base q
  have hbucket : ∃ k < 4, bucketNo (hash key) k = bucketNo (hash c.key) (q / kAssociatedWays) :=
    ⟨q / kAssociatedWays, by simp only [kAssociatedWays]; omega, by rw [hck]⟩
  have hslots' := hslots.setMoved (s := c.newSlot) hap hsl
    (fun b hb => absurd (hm.trans hnull) hb.1)
    fun _ => ⟨_, hblock, ⟨hmem, hkey, hfp, _, _, .inl hsl, hbucket⟩, hfol.moves⟩
  rw [← hfol.after] at hslots'
  refine ⟨⟨h.splitting.control, h.splitting.headers, hslots'⟩,
    h.call.goOn hidle rfl rfl rfl rfl rfl ⟨⟨hfol.moves, hfol.after, hfol.base, hfol.slot⟩, hN, ?_⟩,
    fun hf => (by cases hf), fun _ => h.stored (hpc ▸ rfl)⟩
  intro q' hne'
  by_cases hqq : q' = q
  · subst hqq
    simp [Buf.setSlot, hm, hnull] at hne'
  · simp only [Buf.setSlot, update_of_ne hqq] at hne' ⊢
    exact hforeign q' hne'

theorem Insertion.step (hK : PrefixFree K) (hu : Undisturbed x hash key m r c)
    (hn : InsertStep hash m c m' c') : ∃ map', Insertion x hash K key alloc m' r c' map' := by
  -- a step that leaves the memory as it is
  have hquiet {pc : InsertPc} (hpc : c.pc = pc) (c' : InsertCall)
      (hargs : c'.dirCache = c.dirCache ∧ c'.key = c.key ∧ c'.value = c.value ∧
        c'.newSlot = c.newSlot) (hi : pc ≠ .idle)
      (hpc' : c'.pc = .full ∨ c'.pc.claimed = pc.claimed ∧ pc ≠ .full)
      (hat : AtInsert x hash K key m r.pc.progress c' c'.pc) :
      ∃ map', Insertion x hash K key alloc m r c' map' := by
    subst hpc
    obtain ⟨hd, hk, hv, hs⟩ := hargs
    refine ⟨map, h.splitting, h.call.goOn hi rfl hd hk hv hs hat, fun hf hne => ?_, fun hf => ?_⟩
    · obtain ⟨hc, hne'⟩ := hpc'.resolve_left hne
      exact h.absent (hc ▸ hf) hne'
    · rw [hv]
      rcases hpc' with hpc | ⟨hc, -⟩
      · rw [hpc] at hf
        cases hf
      · exact h.stored (hc ▸ hf)
  have hsame {c : InsertCall} : c.dirCache = c.dirCache ∧ c.key = c.key ∧ c.value = c.value ∧
      c.newSlot = c.newSlot := ⟨rfl, rfl, rfl, rfl⟩
  cases hn with
  | find0 hpc => exact hquiet hpc _ hsame (by simp) (.inr ⟨rfl, by simp⟩) rfl
  | full hpc =>
    rcases hpc with hpc | hpc <;> exact hquiet hpc _ hsame (by simp) (.inl rfl) trivial
  | pick hpc hq hs =>
    exact hquiet hpc _ hsame (by simp) (.inr ⟨rfl, by simp⟩) ⟨h.call.at_of hpc, hq, rfl, hs⟩
  | claim hpc hm => exact ⟨_, h.claim hmem hap hkey hu hpc hm⟩
  | lost hpc hm => exact hquiet hpc _ hsame (by simp) (.inr ⟨rfl, by simp⟩) trivial
  | check0 hpc =>
    exact hquiet hpc _ hsame (by simp) (.inr ⟨rfl, by simp⟩) (h.at_check0 hmem hpc)
  | check1 hpc =>
    obtain ⟨hat, hcl⟩ := h.at_check1 hmem hK hkey hu hpc
    exact hquiet hpc _ hsame (by simp) (.inr ⟨hcl, by simp⟩) hat
  | moveWait hpc => exact ⟨map, h⟩
  | moveDir hpc hl =>
    have hat := h.call.at_of hpc
    have hidle : c.pc ≠ .idle := by simp [hpc]
    refine ⟨map, h.splitting, ⟨h.splitting.control.cached hl hmem, fun _ => h.call.args hidle,
      fun _ => h.call.newSlot hidle, ⟨hat.moves, hat.after, hat.base, hat.slot⟩, ?_⟩,
      fun hf => (by cases hf), fun _ => h.stored (hpc ▸ rfl)⟩
    rw [InsertCall.entry, (h.call.args hidle).1]
    exact (h.splitting.entry_after hat.after hmem hat.moves).2
  | move0 hpc =>
    obtain ⟨hfol, hN⟩ := h.call.at_of hpc
    exact hquiet hpc _ hsame (by simp) (.inr ⟨rfl, by simp⟩)
      ⟨⟨hfol.moves, hfol.after, hfol.base, hfol.slot⟩, hN,
        fun q hq => h.splitting.slots.foreign hN (hash c.key) q (if_pos hq)⟩
  | move1 hpc hq hs =>
    obtain ⟨hfol, hN, hforeign⟩ := h.call.at_of hpc
    refine hquiet hpc _ hsame (by simp) (.inr ⟨rfl, by simp⟩)
      ⟨⟨hfol.moves, hfol.after, hfol.base, hfol.slot⟩, hN, hq, hs, fun q => ?_⟩
    by_cases hg : posGroup q = 1
    · exact h.splitting.slots.foreign hN (hash c.key) q (if_pos hg)
    · have hslot : (c.read hash m 1).slot q = c.buf.slot q := if_neg hg
      unfold Foreign
      simp only [hslot]
      exact hforeign q ((posGroup_lt q).resolve_right hg)
  | moveClaim hpc hm => exact ⟨map, h.moveClaim hmem hap hkey hpc hm⟩
  | moveLost hpc hm =>
    obtain ⟨hfol, hN, -⟩ := h.call.at_of hpc
    have hcl : Claimed x hash key m r.pc.progress c := hfol.claimed hap hN
    exact hquiet hpc _ hsame (by simp) (.inr ⟨rfl, by simp⟩) ⟨hcl.old, hcl.new⟩
  | moveClear hpc => exact ⟨map, h.moveClear hap hpc⟩
  | clear hpc hm | changed hpc hm => exact (h.call.at_of hpc).elim

end

end Fusa.Table

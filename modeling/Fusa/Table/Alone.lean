import Fusa.Lib.Transition
import Fusa.Table.Insert
import Fusa.Table.Content

/-! Calls of `insert`, `update` and `remove` that nothing else interferes with. -/
namespace Fusa.Table

/-- Both reads of `read_bucket`, with no write between them. -/
def Memory.buckets (m : Memory) (base : ℕ) (hs : Hashes) : Buf where
  header i := m.header (bucketAddr base (bucketNo hs i))
  slot q := m.slot (posAddr base hs q)

theorem readGroup_both (m : Memory) (base : ℕ) (hs : Hashes) (b : Buf) :
    readGroup m base hs 1 (readGroup m base hs 0 b) = m.buckets base hs := by
  unfold readGroup Memory.buckets
  congr 1
  · funext i
    have hi : i % 2 = 1 ∨ i % 2 = 0 := by omega
    rcases hi with hi | hi <;> simp [hi]
  · funext q
    rcases posGroup_lt q with hq | hq <;> simp [hq]

def Memory.setSlot (m : Memory) (a : ℕ) (s : Slot) : Memory :=
  { m with slot := Function.update m.slot a s }

theorem Memory.slot_setSlot (m : Memory) (a : ℕ) (s : Slot) : (m.setSlot a s).slot a = s :=
  Function.update_self ..

section
variable (hash : Bytes → Hashes)

/-- A call of `insert` once `write_block` has put its block at `pointer`. -/
def insertCall (d : Directory) (key value : Bytes) (pointer : ℕ) : InsertCall where
  pc := .find0
  key := key
  value := value
  newSlot := blockSlot hash key value pointer
  dirCache := d
  base := 0
  buf := ⟨fun _ => ⟨0, 0⟩, fun _ => .null⟩
  slotAddr := 0
  slotBucket := 0
  slotPos := 0

def insertRun (fuel : ℕ) (m : Memory) (c : InsertCall) : Memory × InsertCall :=
  Machine.run (fun s => insertStep hash s.1 s.2) fuel (m, c)

def modifyRun (fuel : ℕ) (m : Memory) (c : ModifyCall) : Memory × ModifyCall :=
  Machine.run (fun s => modifyStep hash s.1 s.2) fuel (m, c)

def Absent (m : Memory) (key : Bytes) : Prop :=
  ∀ q < 28, matchesKey m.block (hash key) key
    (m.slot (posAddr (m.dir.entry (hash key)).pointer (hash key) q)) = false

end

variable {hash : Bytes → Hashes} {m : Memory} {d : Directory} {key : Bytes}

/-- The second loop of `insert` finds the slot of the call and nothing else. -/
theorem InsertCall.check_eq_returned {c : InsertCall}
    (hstale : stale (hash c.key) (c.entry hash) (c.buf.header c.slotBucket) = false)
    (hbuf : c.buf.slot = fun q => m.slot (c.addr hash q))
    (hfp : c.newSlot.fp = getFingerprint (hash c.key).h0)
    (hothers : ∀ q < 28, c.addr hash q ≠ c.slotAddr →
      matchesKey m.block (hash c.key) c.key (m.slot (c.addr hash q)) = false) :
    c.check hash m = .returned := by
  have hown : ∀ q ∈ positions, c.accepts hash m q → c.addr hash q = c.slotAddr := by
    intro q hq hacc
    by_contra hne
    have hno := hothers q (mem_positions.mp hq) hne
    simp only [InsertCall.accepts, hbuf, decide_eq_true_eq, hne, false_or, hfp] at hacc
    simp [matchesKey, hacc] at hno
  have hone : (c.duplicates hash m).hits.length ≤ 1 :=
    LeastScan.length_hits_le_one nodup_positions fun p hp q hq hap haq =>
      (hown p hp hap).trans (hown q hq haq).symm
  rw [InsertCall.check, hstale, if_neg Bool.false_ne_true, if_pos hone]

variable {n q : ℕ}

theorem insertRun_step {m' : Memory} {c c' : InsertCall} (h : insertStep hash m c = some (m', c')) :
    insertRun hash (n + 1) m c = insertRun hash n m' c' :=
  Machine.run_step (f := fun s => insertStep hash s.1 s.2) h

theorem insertRun_halted {c : InsertCall} (h : insertStep hash m c = none) :
    insertRun hash n m c = (m, c) :=
  Machine.run_halted (f := fun s => insertStep hash s.1 s.2) h

def InsertCall.readBoth (hash : Bytes → Hashes) (c : InsertCall) (m : Memory) : InsertCall :=
  { c with base := (c.entry hash).pointer, buf := m.buckets (c.entry hash).pointer (hash c.key) }

def InsertCall.claim (hash : Bytes → Hashes) (c : InsertCall) (q : ℕ) : InsertCall :=
  { c with slotAddr := c.addr hash q, slotBucket := q / kAssociatedWays, slotPos := q,
           pc := .claim q }

section
variable {c : InsertCall}

theorem insertRun_both (pc : InsertPc) {c₁ c₂ : InsertCall} (n : ℕ)
    (hc₁ : { c with base := (c.entry hash).pointer, buf := c.read hash m 0, pc := pc } = c₁)
    (h₀ : insertStep hash m c = some (m, c₁))
    (h₁ : c₁.read hash m 1 = m.buckets (c.entry hash).pointer (hash c.key) →
      insertStep hash m c₁ = some (m, c₂)) :
    insertRun hash (n + 2) m c = insertRun hash n m c₂ := by
  subst hc₁
  rw [insertRun_step h₀]
  exact insertRun_step (h₁ (readGroup_both ..))

theorem run_find_claim (hpc : c.pc = .find0)
    (hq : (m.buckets (c.entry hash).pointer (hash c.key)).firstEmpty = some q) (n : ℕ) :
    insertRun hash (n + 2) m c = insertRun hash n m ((c.readBoth hash m).claim hash q) := by
  refine insertRun_both .find1 n rfl (by simp only [insertStep, hpc]) fun hbuf => ?_
  simp only [insertStep]
  rw [hbuf, hq]
  rfl

theorem run_find_full (hpc : c.pc = .find0)
    (hq : (m.buckets (c.entry hash).pointer (hash c.key)).firstEmpty = none) (n : ℕ) :
    insertRun hash (n + 2) m c = (m, { c.readBoth hash m with pc := .full }) := by
  refine (insertRun_both .find1 n rfl (by simp only [insertStep, hpc]) fun hbuf => ?_).trans
    (insertRun_halted rfl)
  simp only [insertStep]
  rw [hbuf, hq]
  rfl

theorem run_claim (hpc : c.pc = .claim q) (heq : m.slot c.slotAddr = c.buf.slot q) (n : ℕ) :
    insertRun hash (n + 1) m c = insertRun hash n (m.setSlot c.slotAddr c.newSlot)
      { c with buf := c.buf.setSlot q (m.slot c.slotAddr), pc := .check0 } := by
  refine insertRun_step ?_
  simp only [insertStep, hpc]
  rw [casSlot_of_eq heq, if_pos heq]
  rfl

theorem run_check (m : Memory) (hpc : c.pc = .check0) (n : ℕ) : insertRun hash (n + 2) m c =
      insertRun hash n m { c.readBoth hash m with pc := (c.readBoth hash m).check hash m } := by
  refine insertRun_both .check1 n rfl (by simp only [insertStep, hpc]) fun hbuf => ?_
  simp only [insertStep]
  rw [hbuf]
  rfl

/-- `insert` of an absent key takes the first empty slot, or finds none. -/
theorem insertRun_alone (hpc : c.pc = .find0) (hfp : c.newSlot.fp = getFingerprint (hash c.key).h0)
    (hns : ∀ i, m.staleAt hash (m.dir.entry (hash c.key)) c.key i = false)
    (he : c.entry hash = m.dir.entry (hash c.key)) (habs : Absent hash m c.key) (fuel : ℕ) :
    let addr := m.place hash c.key
    ∃ c', c'.dirCache = c.dirCache ∧ c'.key = c.key ∧ c'.newSlot = c.newSlot ∧
      ((c'.pc = .full ∧ c'.slotAddr = c.slotAddr ∧ insertRun hash (fuel + 5) m c = (m, c')) ∨
      ∃ q < 28, c'.pc = .returned ∧ m.slot (addr q) = .null ∧
        insertRun hash (fuel + 5) m c = (m.setSlot (addr q) c.newSlot, c')) := by
  intro addr
  have hbase : (c.entry hash).pointer = (m.dir.entry (hash c.key)).pointer := congrArg _ he
  cases hq : (m.buckets (c.entry hash).pointer (hash c.key)).firstEmpty with
  | none =>
    exact ⟨{ c.readBoth hash m with pc := .full }, rfl, rfl, rfl,
      .inl ⟨rfl, rfl, run_find_full hpc hq (fuel + 3)⟩⟩
  | some q =>
    obtain ⟨hlt, hempty⟩ := Buf.firstEmpty_eq_some hq
    let c₂ := (c.readBoth hash m).claim hash q
    have haddr : c₂.slotAddr = addr q := by
      simp only [c₂, InsertCall.readBoth, InsertCall.claim, InsertCall.addr, hbase, addr]
    let c₃ : InsertCall :=
      { c₂ with buf := c₂.buf.setSlot q (m.slot c₂.slotAddr), pc := .check0 }
    let m' := m.setSlot c₂.slotAddr c.newSlot
    have hclaim : insertRun hash (fuel + 3) m c₂ = insertRun hash (fuel + 2) m' c₃ :=
      run_claim rfl rfl (fuel + 2)
    have hcheck : (c₃.readBoth hash m').check hash m' = .returned := by
      refine InsertCall.check_eq_returned ?_ rfl hfp fun p hp hne => ?_
      · change stale (hash c.key) (c.entry hash) (m.header (bucketAddr (c.entry hash).pointer _))
          = _
        rw [he]
        exact hns _
      · have hslot : m'.slot ((c₃.readBoth hash m').addr hash p) =
            m.slot ((c₃.readBoth hash m').addr hash p) := Function.update_of_ne hne _ _
        rw [hslot]
        change matchesKey m.block (hash c.key) c.key
          (m.slot (posAddr (c.entry hash).pointer (hash c.key) p)) = false
        rw [hbase]
        exact habs p hp
    have hrun : insertRun hash (fuel + 5) m c =
        (m', { c₃.readBoth hash m' with pc := .returned }) := by
      rw [run_find_claim hpc hq (fuel + 3), hclaim, run_check _ rfl, hcheck]
      exact insertRun_halted rfl
    refine ⟨{ c₃.readBoth hash m' with pc := .returned }, rfl, rfl, rfl, .inr ⟨q, hlt, rfl, ?_, ?_⟩⟩
    · rw [← hempty, ← haddr]
      rfl
    · rw [hrun, ← haddr]

end

/-! ### `update`, `remove` and `rmw` -/

def ModifyCall.readBoth (hash : Bytes → Hashes) (c : ModifyCall) (m : Memory) : ModifyCall :=
  { c with base := (c.entry hash).pointer, entryIdx := c.dirCache.index (hash c.key)
           buf := m.buckets (c.entry hash).pointer (hash c.key) }

section
variable {f : Memory × ModifyCall → Option (Memory × ModifyCall)} {c : ModifyCall}
  (hf : ∀ m c, (∀ q, c.pc ≠ .cas q) → f (m, c) = modifyStep hash m c) (hpc : c.pc = .read0)
include hf hpc

theorem run_read (n : ℕ) : Machine.run f (n + 2) (m, c) =
    Machine.run f n (m, { c.readBoth hash m with pc := (c.readBoth hash m).found hash m }) := by
  let c₁ : ModifyCall := { c.readBoth hash m with buf := c.read hash m 0, pc := .read1 }
  have h₀ : f (m, c) = some (m, c₁) := by
    rw [hf m c (by simp [hpc])]
    simp only [modifyStep, hpc, c₁, ModifyCall.readBoth]
  have hbuf : c₁.read hash m 1 = (c.readBoth hash m).buf := readGroup_both ..
  have h₁ : f (m, c₁) =
      some (m, { c.readBoth hash m with pc := (c.readBoth hash m).found hash m }) := by
    rw [hf m c₁ (by simp [c₁])]
    simp only [modifyStep, c₁]
    rw [hbuf]
    rfl
  rw [Machine.run_step h₀, Machine.run_step h₁]

theorem run_found (hp : (c.entry hash).pointer = (m.dir.entry (hash c.key)).pointer)
    (hns : ∀ i, m.staleAt hash (c.entry hash) c.key i = false) (n : ℕ) :
    let addr := m.place hash c.key
    ∃ c', c'.dirCache = c.dirCache ∧ c'.key = c.key ∧ c'.value = c.value ∧
      c'.newSlot = c.newSlot ∧ Machine.run f (n + 2) (m, c) = Machine.run f n (m, c') ∧
      ((findKey m.block (hash c.key) c.key (fun q => m.slot (addr q)) = none ∧ c'.pc = .enoent) ∨
      ∃ q, findKey m.block (hash c.key) c.key (fun q => m.slot (addr q)) = some q ∧
        c'.pc = .cas q ∧ c'.addr hash q = addr q ∧ c'.buf.slot q = m.slot (addr q)) := by
  intro addr
  let c₂ := c.readBoth hash m
  have hstale : ((List.range 4).any fun i =>
      stale (hash c₂.key) (c₂.entry hash) (c₂.buf.header i)) = false := by
    rw [List.any_eq_false]
    exact fun i _ => ne_true_of_eq_false (hns i)
  have hslot : c₂.buf.slot = fun q => m.slot (addr q) := by
    funext q
    simp only [c₂, ModifyCall.readBoth, Memory.buckets, hp, addr]
  refine ⟨{ c₂ with pc := c₂.found hash m }, rfl, rfl, rfl, rfl, run_read hf hpc n, ?_⟩
  cases hfind : findKey m.block (hash c.key) c.key (fun q => m.slot (addr q)) with
  | none =>
    refine .inl ⟨rfl, ?_⟩
    rw [← hslot] at hfind
    change findKey m.block (hash c₂.key) c₂.key c₂.buf.slot = none at hfind
    rw [ModifyCall.found, hstale, if_neg Bool.false_ne_true, hfind]
  | some q =>
    refine .inr ⟨q, rfl, ?_, ?_, congrFun hslot q⟩
    · rw [← hslot] at hfind
      change findKey m.block (hash c₂.key) c₂.key c₂.buf.slot = some q at hfind
      rw [ModifyCall.found, hstale, if_neg Bool.false_ne_true, hfind]
    · simp only [ModifyCall.addr, c₂, ModifyCall.readBoth, hp, addr]

theorem run_refresh (hu : m.dir.locked = false)
    (hidle : (m.dir.subtables (c.dirCache.index (hash c.key))).lock = 0)
    (hst : m.staleAt hash (c.entry hash) c.key 0 = true) :
    ∃ c', c'.pc = .read0 ∧ c'.dirCache = m.dir ∧ c'.key = c.key ∧ c'.value = c.value ∧
      c'.newSlot = c.newSlot ∧ ∀ n, Machine.run f (n + 4) (m, c) = Machine.run f n (m, c') := by
  let c₂ := c.readBoth hash m
  have hfound : c₂.found hash m = .checkDir := if_pos (List.any_eq_true.mpr ⟨0, by decide, hst⟩)
  let c₃ : ModifyCall := { c₂ with dirCache := m.dir, pc := .checkEntry }
  have h₂ : f (m, { c₂ with pc := .checkDir }) = some (m, c₃) := by
    rw [hf m _ (by simp)]
    simp [modifyStep, hu, c₃]
  have h₃ : f (m, c₃) = some (m, { c₃ with pc := .read0 }) := by
    rw [hf m _ (by simp [c₃])]
    simp [modifyStep, hidle, c₃, c₂, ModifyCall.readBoth, Directory.setEntry]
  refine ⟨{ c₃ with pc := .read0 }, rfl, rfl, rfl, rfl, rfl, fun n => ?_⟩
  rw [run_read hf hpc (n + 2), hfound, Machine.run_step h₂, Machine.run_step h₃]

end

theorem modifyStep_cas (hash : Bytes → Hashes) (m : Memory) {c : ModifyCall} (hpc : c.pc = .cas q)
    (heq : m.slot (c.addr hash q) = c.buf.slot q) :
    modifyStep hash m c = some (m.setSlot (c.addr hash q) c.newSlot,
      { c with buf := c.buf.setSlot q (m.slot (c.addr hash q)), pc := .ok }) := by
  simp only [modifyStep, hpc]
  rw [casSlot_of_eq heq, if_pos heq]
  rfl

/-- `update` and `remove` replace the first slot that matches the key, if there is one. -/
theorem modifyRun_alone {c : ModifyCall} (hpc : c.pc = .read0)
    (hp : (c.entry hash).pointer = (m.dir.entry (hash c.key)).pointer)
    (hns : ∀ i, m.staleAt hash (c.entry hash) c.key i = false) (fuel : ℕ) :
    let addr := m.place hash c.key
    let found := findKey m.block (hash c.key) c.key fun q => m.slot (addr q)
    ∃ c', c'.dirCache = c.dirCache ∧
      ((found = none ∧ c'.pc = .enoent ∧ modifyRun hash (fuel + 3) m c = (m, c')) ∨
      ∃ q, found = some q ∧ c'.pc = .ok ∧
        modifyRun hash (fuel + 3) m c = (m.setSlot (addr q) c.newSlot, c')) := by
  intro addr found
  obtain ⟨c', hd, -, -, hnew, hrun, ⟨hfind, hpc'⟩ | ⟨q, hfind, hpc', haddr, hbuf⟩⟩ :=
    run_found (f := fun s => modifyStep hash s.1 s.2) (fun _ _ _ => rfl) hpc hp hns (fuel + 1)
  · refine ⟨c', hd, .inl ⟨hfind, hpc', hrun.trans (Machine.run_halted ?_)⟩⟩
    simp [modifyStep, hpc']
  · have hcas := modifyStep_cas hash m hpc' (by rw [haddr, hbuf])
    rw [haddr] at hcas
    rw [← hnew]
    exact ⟨{ c' with buf := c'.buf.setSlot q (m.slot (addr q)), pc := .ok }, hd,
      .inr ⟨q, hfind, rfl, hrun.trans ((Machine.run_step hcas).trans (Machine.run_halted rfl))⟩⟩

/-- `rmw` without a value yet: the key found, its block is written, and freed if the CAS fails. -/
def rmwStep (hash : Bytes → Hashes) (transform : Bytes → Bytes) (pointer : ℕ) (m : Memory)
    (c : ModifyCall) : Option (Memory × ModifyCall) :=
  match c.pc, c.value with
  | .cas q, none =>
    let old := ((m.block (c.buf.slot q).pointer).bind (readBlock c.key)).getD []
    some (m.writeBlock c.key (transform old) pointer,
      { c with value := some (transform old)
               newSlot := blockSlot hash c.key (transform old) pointer })
  | .cas _, some _ =>
    (modifyStep hash m c).map fun r =>
      (r.1, if r.2.pc = .ok then r.2 else { r.2 with value := none })
  | _, _ => modifyStep hash m c

def ModifyCall.rmw (c : ModifyCall) (key : Bytes) : ModifyCall :=
  { c with pc := .read0, key := key, value := none }

def rmwRun (hash : Bytes → Hashes) (transform : Bytes → Bytes) (pointer fuel : ℕ) (m : Memory)
    (c : ModifyCall) : Memory × ModifyCall :=
  Machine.run (fun s => rmwStep hash transform pointer s.1 s.2) fuel (m, c)

section
variable (transform : Bytes → Bytes) (pointer : ℕ)
include transform pointer

theorem rmwStep_eq_modifyStep (m : Memory) (c : ModifyCall) (h : ∀ q, c.pc ≠ .cas q) :
    rmwStep hash transform pointer m c = modifyStep hash m c := by
  unfold rmwStep
  split
  · exact absurd ‹_› (h _)
  · exact absurd ‹_› (h _)
  · rfl

theorem rmwStep_cas {c : ModifyCall} {value : Bytes} (hpc : c.pc = .cas q)
    (hv : c.value = some value) (heq : m.slot (c.addr hash q) = c.buf.slot q) :
    rmwStep hash transform pointer m c = some (m.setSlot (c.addr hash q) c.newSlot,
      { c with buf := c.buf.setSlot q (m.slot (c.addr hash q)), pc := .ok }) := by
  have hstep : rmwStep hash transform pointer m c = (modifyStep hash m c).map fun r =>
      (r.1, if r.2.pc = .ok then r.2 else { r.2 with value := none }) := by
    simp only [rmwStep, hpc, hv]
  rw [hstep, modifyStep_cas hash m hpc heq]
  rfl

theorem rmwRun_alone {c : ModifyCall} (hpc : c.pc = .read0) (hv : c.value = none)
    (hp : (c.entry hash).pointer = (m.dir.entry (hash c.key)).pointer)
    (hns : ∀ i, m.staleAt hash (c.entry hash) c.key i = false) (fuel : ℕ) :
    let addr := m.place hash c.key
    let found := findKey m.block (hash c.key) c.key fun q => m.slot (addr q)
    ∃ c', c'.dirCache = c.dirCache ∧
      ((found = none ∧ c'.pc = .enoent ∧
        rmwRun hash transform pointer (fuel + 4) m c = (m, c')) ∨
      ∃ q value, found = some q ∧ c'.pc = .ok ∧
        value = transform (((m.block (m.slot (addr q)).pointer).bind (readBlock c.key)).getD []) ∧
        rmwRun hash transform pointer (fuel + 4) m c =
          ((m.writeBlock c.key value pointer).setSlot (addr q)
            (blockSlot hash c.key value pointer), c')) := by
  intro addr found
  obtain ⟨c₁, hd, hk, hv₁, -, hrun, ⟨hfind, hpc₁⟩ | ⟨q, hfind, hpc₁, haddr, hbuf⟩⟩ :=
    run_found (f := fun s => rmwStep hash transform pointer s.1 s.2)
      (rmwStep_eq_modifyStep transform pointer) hpc hp hns (fuel + 2)
  · refine ⟨c₁, hd, .inl ⟨hfind, hpc₁, hrun.trans (Machine.run_halted ?_)⟩⟩
    simp [rmwStep, modifyStep, hpc₁]
  · let value := transform (((m.block (m.slot (addr q)).pointer).bind (readBlock c.key)).getD [])
    let m' := m.writeBlock c.key value pointer
    let c₂ : ModifyCall :=
      { c₁ with key := c.key, value := some value, newSlot := blockSlot hash c.key value pointer
                pc := .cas q }
    have hwrite : rmwStep hash transform pointer m c₁ = some (m', c₂) := by
      simp only [rmwStep, hpc₁, hv₁, hv, hbuf, hk]
      rfl
    have haddr₂ : c₂.addr hash q = addr q := by
      refine Eq.trans ?_ haddr
      rw [ModifyCall.addr, ModifyCall.addr, hk]
    have heq : m'.slot (c₂.addr hash q) = c₂.buf.slot q := by
      rw [haddr₂]
      exact hbuf.symm
    have hcas := rmwStep_cas transform pointer rfl rfl heq
    rw [haddr₂] at hcas
    refine ⟨{ c₂ with buf := c₂.buf.setSlot q (m'.slot (addr q)), pc := .ok }, hd,
      .inr ⟨q, value, hfind, rfl, rfl, ?_⟩⟩
    have hcas' : Machine.run (fun s => rmwStep hash transform pointer s.1 s.2) (fuel + 1) (m', c₂) =
        _ := Machine.run_step hcas
    refine hrun.trans ((Machine.run_step hwrite).trans (hcas'.trans (Machine.run_halted ?_)))
    simp [rmwStep, modifyStep]

end

end Fusa.Table

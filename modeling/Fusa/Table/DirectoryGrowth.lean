import Fusa.Table.MovingKey

/-! Clients that call `resize_directory` at the same time. -/
namespace Fusa.Table
open Transition Function Option

/-- What a split changes in an entry of the directory, and a lock does not. -/
def SubTableEntry.content (e : SubTableEntry) : ℕ × ℕ := (e.localDepth, e.pointer)

/-- The clients in `resize`; `split k i`: entry `i` has changed since the read from depth `k`. -/
structure Growth (ι : Type*) where
  mem : Memory
  client : ι → Resizer
  split : ℕ → ℕ → Bool

/-- Calls of `resize_directory`, their operations, and writes to entries by splits and locks. -/
inductive GrowthLabel (ι : Type*)
  | call (i : ι) (depth : ℕ)
  | step (i : ι)
  | edit (j : ℕ) (e : SubTableEntry)

def ResizePc.growing : ResizePc → Bool
  | .growCas _ | .growRead _ | .growWrite _ | .growPublish => true
  | _ => false

def Resizer.winning (r : Resizer) : Bool :=
  match r.pc with
  | .growRead g => r.casBuf = (g, false)
  | .growWrite _ | .growPublish => true
  | _ => false

def Resizer.losing (r : Resizer) : Bool :=
  match r.pc with
  | .growRead g => r.casBuf ≠ (g, false)
  | _ => false

/-- The directory has, or had, this depth while it was unlocked. -/
def Directory.Reached (d : Directory) (depth : ℕ) : Prop :=
  depth < d.globalDepth ∨ depth = d.globalDepth ∧ d.locked = false
deriving Decidable

/-- The upper half of each growth repeats the lower half, but for entries that have changed. -/
def Directory.Full (d : Directory) (split : ℕ → ℕ → Bool) (depth : ℕ) : Prop :=
  ∀ k < depth, ∀ i < 2 ^ k, split k i = false → split k (i + 2 ^ k) = false →
    (d.subtables (i + 2 ^ k)).content = (d.subtables i).content

/-- What the caller of `resize_directory` needs. -/
structure Directory.Usable (d : Directory) (split : ℕ → ℕ → Bool) (depth : ℕ) : Prop where
  unlocked : d.locked = false
  deeper : depth < d.globalDepth
  full : d.Full split d.globalDepth

namespace Growth
variable {ι : Type*} [DecidableEq ι] (hash : Bytes → Hashes) (alloc : ℕ → ℕ)

def next (s : Growth ι) : GrowthLabel ι → Option (Growth ι)
  | .call i depth =>
    let r := s.client i
    if r.pc = .size then
      some { s with
        client := update s.client i { r with pc := .growCas depth, globalDepth := depth } }
    else none
  | .step i =>
    let r := s.client i
    if r.pc.growing then
      (resizeStep hash alloc s.mem r).map fun p => {
        mem := p.1
        client := update s.client i p.2
        split := fun k j =>
          if r.pc = .growRead k ∧ r.casBuf = (k, false) then false else s.split k j }
    else none
  | .edit j e =>
    some { s with
      mem := s.mem.setEntry j e
      split := fun k i =>
        s.split k i || decide (i = j ∧ e.content ≠ (s.mem.dir.subtables j).content) }

def system : System (Growth ι) (GrowthLabel ι) where
  start s := s.mem.dir.locked = false ∧ (∀ i, (s.client i).pc = .size) ∧ s.split = fun _ _ => true
  next := next hash alloc

/-- Every call passes a depth reached, and one that lost its CAS reads the directory when none is
between its CAS and its last write. -/
def Orderly (s : Growth ι) : GrowthLabel ι → Prop
  | .call _ depth => s.mem.dir.Reached depth
  | .step i => (s.client i).losing = true → ∀ j, (s.client j).winning = false
  | .edit _ _ => True

def At (m : Memory) (split : ℕ → ℕ → Bool) (r : Resizer) : ResizePc → Prop
  | .growCas g => g = r.globalDepth ∧ m.dir.Reached g
  | .growRead g => g = r.globalDepth ∧
      (r.casBuf ≠ (g, false) → g < r.casBuf.1 ∧ g < m.dir.globalDepth)
  | .growWrite g => g = r.globalDepth ∧ r.dirCache.globalDepth = g + 1 ∧
      r.dirCache.Usable split g ∧
      ∀ i < 2 ^ g, split g i = false →
        (r.dirCache.subtables i).content = (m.dir.subtables i).content
  | .growPublish => r.dirCache.globalDepth = r.globalDepth + 1 ∧
      r.dirCache.Usable split r.globalDepth ∧ m.dir.Full split (r.globalDepth + 1)
  | _ => True

structure Inv (s : Growth ι) : Prop where
  full : s.mem.dir.Full s.split (s.mem.dir.globalDepth - s.mem.dir.locked.toNat)
  owner : s.mem.dir.locked = true → ∃ i, (s.client i).winning = true
  winner : ∀ i, (s.client i).winning = true →
    s.mem.dir.locked = true ∧ s.mem.dir.globalDepth = (s.client i).globalDepth + 1
  unique : ∀ i j, (s.client i).winning = true → (s.client j).winning = true → i = j
  at_pc : ∀ i, At s.mem s.split (s.client i) (s.client i).pc

end Growth

section
variable {split split' : ℕ → ℕ → Bool} {d d' : Directory} {depth : ℕ}

theorem Directory.Full.congr (h : d.Full split depth)
    (hd : ∀ k < depth, ∀ i < 2 ^ depth, split' k i = false →
      split k i = false ∧ (d'.subtables i).content = (d.subtables i).content) :
    d'.Full split' depth := by
  intro k hk i hi hs hs'
  have hpow : 2 ^ (k + 1) ≤ 2 ^ depth := Nat.pow_le_pow_right (by decide) hk
  rw [pow_succ] at hpow
  obtain ⟨h₁, hc₁⟩ := hd k hk i (by omega) hs
  obtain ⟨h₂, hc₂⟩ := hd k hk (i + 2 ^ k) (by omega) hs'
  rw [hc₁, hc₂]
  exact h k hk i hi h₁ h₂

theorem content_grow {g i : ℕ} (hi : i < 2 ^ g) : (d.grow g).subtables i = d.subtables i :=
  if_neg fun h => by omega

theorem Directory.Full.grow {g : ℕ} (h : d.Full split g)
    (hs : ∀ k < g, ∀ i, split' k i = false → split k i = false) :
    (d.grow g).Full split' (g + 1) := by
  intro k hk i hi h₁ h₂
  rcases Nat.lt_succ_iff_lt_or_eq.mp hk with hk | rfl
  · have hlow : (d.grow g).Full split' g :=
      h.congr fun k hk i hi hsp => ⟨hs k hk i hsp, by rw [content_grow hi]⟩
    exact hlow k hk i hi h₁ h₂
  · rw [content_grow hi, Directory.grow]
    dsimp only
    rw [if_pos ⟨by omega, by rw [pow_succ]; omega⟩, Nat.add_sub_cancel]
    rfl

theorem Directory.Full.write {g : ℕ} {c : Directory} (h : d.Full split g)
    (hc : c.Full split (g + 1))
    (hcd : ∀ i < 2 ^ g, split g i = false → (c.subtables i).content = (d.subtables i).content)
    (hlow : ∀ i < 2 ^ g, d'.subtables i = d.subtables i)
    (hup : ∀ i < 2 ^ g, d'.subtables (i + 2 ^ g) = c.subtables (i + 2 ^ g)) :
    d'.Full split (g + 1) := by
  intro k hk i hi h₁ h₂
  rcases Nat.lt_succ_iff_lt_or_eq.mp hk with hk | rfl
  · exact (h.congr fun k _ i hi hs => ⟨hs, by rw [hlow i hi]⟩) k hk i hi h₁ h₂
  · rw [hlow i hi, hup i hi, ← hcd i hi h₁]
    exact hc k hk i hi h₁ h₂

end

namespace Growth
variable {ι : Type*} [DecidableEq ι] {hash : Bytes → Hashes} {alloc : ℕ → ℕ}
  {s s' : Growth ι} {i : ι} {m m' : Memory} {split split' : ℕ → ℕ → Bool} {r r' : Resizer} {g : ℕ}

omit [DecidableEq ι] in
theorem Inv.unlocked (h : Inv s) (hw : ∀ j, (s.client j).winning = false) :
    s.mem.dir.locked = false := by
  cases hl : s.mem.dir.locked with
  | false => rfl
  | true =>
    obtain ⟨j, hj⟩ := h.owner hl
    rw [hw j] at hj
    cases hj

omit [DecidableEq ι] in
theorem Inv.full_of_winning (h : Inv s) (hw : (s.client i).winning = true) :
    s.mem.dir.Full s.split (s.client i).globalDepth := by
  obtain ⟨hl, hdep⟩ := h.winner i hw
  have hfull := h.full
  rwa [hl, hdep] at hfull

theorem At.mono (h : At m split r r.pc) (hw : r.winning = false)
    (hr : ∀ g, m.dir.Reached g → m'.dir.Reached g)
    (hd : m.dir.globalDepth ≤ m'.dir.globalDepth) : At m' split' r r.pc := by
  unfold Resizer.winning at hw
  cases hpc : r.pc with
  | growCas g =>
    rw [hpc] at h
    exact ⟨h.1, hr g h.2⟩
  | growRead g =>
    rw [hpc] at h
    exact ⟨h.1, fun hne => ⟨(h.2 hne).1, (h.2 hne).2.trans_le hd⟩⟩
  | growWrite g | growPublish => simp [hpc] at hw
  | _ => trivial

section
variable (h : Inv s)
include h

/-- One client goes on, and the others have not won their CAS. -/
theorem Inv.of_client (hi : ∀ j, (s.client j).winning = true → j = i)
    (hfull : m.dir.Full split (m.dir.globalDepth - m.dir.locked.toNat))
    (hw : r.winning = m.dir.locked)
    (hdepth : r.winning = true → m.dir.globalDepth = r.globalDepth + 1)
    (hr : ∀ g, s.mem.dir.Reached g → m.dir.Reached g)
    (hd : s.mem.dir.globalDepth ≤ m.dir.globalDepth) (hat : At m split r r.pc) :
    Inv ⟨m, update s.client i r, split⟩ := by
  refine ⟨hfull, fun hl => ⟨i, by simp_all⟩, fun j hj => ?_, fun j k hj hk => ?_,
    (forall_update_iff _ fun _ r => At m split r r.pc).mpr ⟨hat, fun j hj => ?_⟩⟩
  · grind
  · grind
  · have hwj : (s.client j).winning = false := by grind
    exact (h.at_pc j).mono hwj hr hd

theorem Inv.quiet (hi : (s.client i).winning = false) (hw : r.winning = false)
    (hat : At s.mem s.split r r.pc) : Inv { s with client := update s.client i r } := by
  have hwin := h.winner
  have huniq := h.unique
  refine ⟨h.full, fun hl => ?_, fun j hj => ?_, fun j k hj hk => ?_,
    (forall_update_iff _ fun _ r => At s.mem s.split r r.pc).mpr ⟨hat, fun j _ => h.at_pc j⟩⟩ <;>
    dsimp only at *
  · obtain ⟨j, hj⟩ := h.owner hl
    exact ⟨j, by grind⟩
  · grind
  · grind

theorem Inv.growCas (hpc : (s.client i).pc = .growCas g)
    (hn : next hash alloc s (.step i) = some s') : Inv s' ∧ (s'.client i).pc ≠ .size := by
  have hat := h.at_pc i
  rw [hpc] at hat
  obtain ⟨rfl, hreach⟩ := hat
  have hlose : (s.client i).winning = false := by simp [Resizer.winning, hpc]
  simp only [next, hpc, ResizePc.growing, if_true, resizeStep, reduceCtorEq, false_and,
    if_false] at hn
  split_ifs at hn with hmax hwin
  · cases hn
    have hl : s.mem.dir.locked = false := congrArg Prod.snd hwin
    have hdep : s.mem.dir.globalDepth = (s.client i).globalDepth := congrArg Prod.fst hwin
    have hnone : ∀ j, (s.client j).winning = true → j = i := fun j hj => by
      have := (h.winner j hj).1
      rw [hl] at this
      cases this
    have hfull := h.full
    rw [hl, hdep] at hfull
    refine ⟨h.of_client hnone hfull ?_ (fun _ => rfl) (fun d hd => .inl ?_) ?_ ⟨rfl, fun hne => ?_⟩,
      ?_⟩
    · simp [Resizer.winning, hwin]
    · rcases hd with hd | ⟨hd, -⟩ <;> dsimp only <;> omega
    · dsimp only
      omega
    · exact absurd hwin hne
    · simp
  · cases hn
    refine ⟨h.quiet hlose ?_ ⟨rfl, fun _ => ?_⟩, ?_⟩
    · simpa [Resizer.winning] using hwin
    · rcases hreach with hd | ⟨hd, hl⟩
      · exact ⟨hd, hd⟩
      · exact absurd (Prod.ext hd.symm hl) hwin
    · simp
  · cases hn

theorem Inv.growRead (hc : Orderly s (.step i)) (hpc : (s.client i).pc = .growRead g)
    (hn : next hash alloc s (.step i) = some s') : Inv s' ∧ ((s'.client i).pc = .size →
      (s'.client i).dirCache.Usable s'.split (s.client i).globalDepth) := by
  have hat := h.at_pc i
  rw [hpc] at hat
  obtain ⟨rfl, hlost⟩ := hat
  simp only [next, hpc, ResizePc.growing, if_true, resizeStep] at hn
  by_cases hwin : (s.client i).casBuf = ((s.client i).globalDepth, false)
  · have hw : (s.client i).winning = true := by simp [Resizer.winning, hpc, hwin]
    obtain ⟨hl, hdep⟩ := h.winner i hw
    rw [if_pos hwin] at hn
    cases hn
    have hfull := h.full_of_winning hw
    have hrow : ∀ k < (s.client i).globalDepth, ∀ j,
        (if ResizePc.growRead (s.client i).globalDepth = .growRead k ∧
          (s.client i).casBuf = (k, false) then false else s.split k j) = false →
        s.split k j = false := by
      intro k hk j hj
      rwa [if_neg fun hc => by
        have := ResizePc.growRead.inj hc.1
        omega] at hj
    refine ⟨h.of_client (fun j hj => h.unique j i hj hw) ?_ hl.symm (fun _ => hdep) (fun _ hd => hd)
      le_rfl ⟨rfl, rfl, ⟨rfl, Nat.lt_succ_self _, hfull.grow hrow⟩, fun j hj _ => ?_⟩, ?_⟩
    · rw [hl, hdep]
      exact hfull.congr fun k hk j _ hj => ⟨hrow k hk j hj, rfl⟩
    · dsimp only
      rw [content_grow hj]
    · simp
  · have hw : (s.client i).winning = false := by simp [Resizer.winning, hpc, hwin]
    obtain ⟨hfound, hdeep⟩ := hlost hwin
    rw [if_neg hwin] at hn
    have hge : (s.client i).casBuf.1 ≥ (s.client i).globalDepth := hfound.le
    have hsplit : ∀ k j, (if ResizePc.growRead (s.client i).globalDepth = .growRead k ∧
        (s.client i).casBuf = (k, false) then false else s.split k j) = s.split k j := by
      intro k j
      refine if_neg fun hc => hwin ?_
      rw [ResizePc.growRead.inj hc.1]
      exact hc.2
    simp only [hge, if_true, map_some, hsplit] at hn
    cases hn
    have hl := h.unlocked (hc (by simp [Resizer.losing, hpc, hwin]))
    refine ⟨h.quiet hw rfl trivial, fun _ => ?_⟩
    dsimp only
    rw [update_self]
    have hfull := h.full
    rw [hl] at hfull
    exact ⟨hl, hdeep, hfull⟩

theorem Inv.growWrite (hpc : (s.client i).pc = .growWrite g)
    (hn : next hash alloc s (.step i) = some s') : Inv s' ∧ (s'.client i).pc ≠ .size := by
  have hat := h.at_pc i
  rw [hpc] at hat
  obtain ⟨rfl, hcd, huse, hlow⟩ := hat
  have hw : (s.client i).winning = true := by simp [Resizer.winning, hpc]
  obtain ⟨hl, hdep⟩ := h.winner i hw
  simp only [next, hpc, ResizePc.growing, if_true, resizeStep, map_some, reduceCtorEq,
    false_and, if_false] at hn
  cases hn
  have hfull := h.full_of_winning hw
  have hlen := huse.full
  rw [hcd] at hlen
  refine ⟨h.of_client (fun j hj => h.unique j i hj hw) ?_ hl.symm (fun _ => hdep) (fun _ hd => hd)
    le_rfl ⟨hcd, huse, ?_⟩, by simp⟩
  · dsimp only
    rw [hl, hdep]
    exact hfull.congr fun k _ j hj hs => ⟨hs, congrArg _ (if_neg fun hc => by omega)⟩
  · exact hfull.write hlen hlow (fun j hj => if_neg fun hc => by omega)
      fun j hj => if_pos ⟨by omega, by rw [pow_succ]; omega⟩

theorem Inv.growPublish (hpc : (s.client i).pc = .growPublish)
    (hn : next hash alloc s (.step i) = some s') : Inv s' ∧ ((s'.client i).pc = .size →
      (s'.client i).dirCache.Usable s'.split (s.client i).globalDepth) := by
  have hat := h.at_pc i
  rw [hpc] at hat
  obtain ⟨hcd, huse, hfull⟩ := hat
  have hw : (s.client i).winning = true := by simp [Resizer.winning, hpc]
  obtain ⟨hl, hdep⟩ := h.winner i hw
  simp only [next, hpc, ResizePc.growing, if_true, resizeStep, map_some, reduceCtorEq,
    false_and, if_false] at hn
  cases hn
  refine ⟨h.of_client (fun j hj => h.unique j i hj hw) ?_ huse.unlocked.symm
    (fun hf => (by cases hf)) (fun d hd => .inl ?_) (by dsimp only; omega) trivial, fun _ => ?_⟩
  · dsimp only
    rwa [huse.unlocked, hcd]
  · rcases hd with hd | ⟨-, hd⟩
    · dsimp only
      omega
    · rw [hl] at hd
      cases hd
  · dsimp only
    rwa [update_self]

theorem Inv.edit {j : ℕ} {e : SubTableEntry} (hn : next hash alloc s (.edit j e) = some s') :
    Inv s' := by
  cases hn
  have hsplit : ∀ k i, (s.split k i ||
      decide (i = j ∧ e.content ≠ (s.mem.dir.subtables j).content)) = false →
      s.split k i = false ∧ ((s.mem.setEntry j e).dir.subtables i).content =
        (s.mem.dir.subtables i).content := by
    intro k i hi
    rw [Bool.or_eq_false_iff, decide_eq_false_iff_not, not_and, not_not] at hi
    refine ⟨hi.1, ?_⟩
    by_cases hij : i = j
    · rw [Memory.setEntry, Directory.setEntry, hij]
      dsimp only
      rw [update_self]
      exact hi.2 hij
    · exact congrArg _ (update_of_ne hij ..)
  refine ⟨h.full.congr fun k _ i _ hi => hsplit k i hi, h.owner, h.winner, h.unique, fun i => ?_⟩
  have hat := h.at_pc i
  cases hpc : (s.client i).pc with
  | growCas g | growRead g =>
    rwa [hpc] at hat
  | growWrite g =>
    rw [hpc] at hat
    obtain ⟨hg, hcd, huse, hlow⟩ := hat
    refine ⟨hg, hcd, ⟨huse.unlocked, huse.deeper, ?_⟩, fun i hi hs => ?_⟩
    · exact huse.full.congr fun k _ i _ hi => ⟨(hsplit k i hi).1, rfl⟩
    · exact (hlow i hi (hsplit g i hs).1).trans (hsplit g i hs).2.symm
  | growPublish =>
    rw [hpc] at hat
    obtain ⟨hcd, huse, hfull⟩ := hat
    refine ⟨hcd, ⟨huse.unlocked, huse.deeper, ?_⟩, hfull.congr fun k _ i _ hi => hsplit k i hi⟩
    exact huse.full.congr fun k _ i _ hi => ⟨(hsplit k i hi).1, rfl⟩
  | _ => trivial

theorem Inv.step (hc : Orderly s (.step i)) (hn : next hash alloc s (.step i) = some s') :
    Inv s' ∧ ((s'.client i).pc = .size →
      (s'.client i).dirCache.Usable s'.split (s.client i).globalDepth) := by
  have hgrow : (s.client i).pc.growing = true := by
    by_contra hf
    simp [next, hf] at hn
  cases hpc : (s.client i).pc with
  | growCas g => exact (h.growCas hpc hn).imp_right fun hne hs => absurd hs hne
  | growRead g => exact h.growRead hc hpc hn
  | growWrite g => exact (h.growWrite hpc hn).imp_right fun hne hs => absurd hs hne
  | growPublish => exact h.growPublish hpc hn
  | _ => simp [hpc, ResizePc.growing] at hgrow

end

theorem inv_of_runWith (h : (system hash alloc).RunWith Orderly s) : Inv s := by
  refine h.invariant (fun s hs => ?_) fun s a s' h hc hn => ?_
  · obtain ⟨hl, hpc, hs⟩ := hs
    refine ⟨fun k _ i _ hf => ?_, fun hl' => ?_, fun i hw => ?_, fun i _ hw => ?_, fun i => ?_⟩
    · rw [hs] at hf
      cases hf
    · rw [hl] at hl'
      cases hl'
    iterate 2 · simp [Resizer.winning, hpc i] at hw
    · rw [hpc i]
      trivial
  · cases a with
    | call i depth =>
      have hn' : next hash alloc s (.call i depth) = some s' := hn
      simp only [next] at hn'
      split_ifs at hn' with hpc
      cases hn'
      exact h.quiet (by simp [Resizer.winning, hpc]) rfl ⟨rfl, hc⟩
    | step i => exact (h.step hc hn).1
    | edit j e =>
      have hn' : next hash alloc s (.edit j e) = some s' := hn
      exact h.edit hn'

theorem usable_of_orderly (h : (system hash alloc).RunWith Orderly s)
    (hc : Orderly s (.step i)) (hn : next hash alloc s (.step i) = some s')
    (hr : (s'.client i).pc = .size) :
    (s'.client i).dirCache.Usable s'.split (s.client i).globalDepth :=
  ((inv_of_runWith h).step hc hn).2 hr

instance Orderly.decidable [Fintype ι] (s : Growth ι) (a : GrowthLabel ι) :
    Decidable (Orderly s a) := by
  cases a <;> unfold Orderly <;> infer_instance

def twoClients : Growth (Fin 2) :=
  ⟨setup, fun _ => { startResizer with pc := .size }, fun _ _ => true⟩

theorem usable_oneAfterAnother : ∃ s s' : Growth (Fin 2),
    (system hashFunction newTables).RunWith Orderly s ∧
      next hashFunction newTables s (.step 1) = some s' ∧
      (s'.client 1).dirCache.Usable s'.split 10 := by
  have hrun : ((system hashFunction newTables).exec twoClients [.call 0 10, .step 0, .step 0,
      .edit 3 ⟨0, 11, 5⟩, .step 0, .step 0, .call 1 10, .step 1]).bind (fun s =>
        (next hashFunction newTables s (.step 1)).map fun s' => decide (Orderly s (.step 1)) &&
          decide ((s'.client 1).pc = .size) && decide ((s.client 1).globalDepth = 10)) =
      some true := by
    decide +kernel
  obtain ⟨s, hs, hr⟩ := bind_eq_some_iff.mp hrun
  obtain ⟨s', hs', hr⟩ := map_eq_some_iff.mp hr
  simp only [Bool.and_eq_true, decide_eq_true_eq] at hr
  have h : (system hashFunction newTables).RunWith Orderly s :=
    System.RunWith.exec (.start ⟨rfl, fun _ => rfl, rfl⟩) _ (by decide +kernel) hs
  refine ⟨s, s', h, hs', ?_⟩
  rw [← hr.2]
  exact usable_of_orderly h hr.1.1 hs' hr.1.2

theorem not_usable_lostCas : ∃ s s' : Growth (Fin 2), (system hashFunction newTables).Reachable s ∧
      next hashFunction newTables s (.step 1) = some s' ∧ (s'.client 1).pc = .size ∧
      ¬ (s'.client 1).dirCache.Usable s'.split 10 := by
  have hrun : ((system hashFunction newTables).exec twoClients [.call 0 10, .call 1 10, .step 0,
      .step 1]).bind (fun s => (next hashFunction newTables s (.step 1)).map fun s' =>
        ((s'.client 1).pc, (s'.client 1).dirCache.locked)) = some (.size, true) := by
    decide +kernel
  obtain ⟨s, hs, hr⟩ := bind_eq_some_iff.mp hrun
  obtain ⟨s', hs', hr⟩ := map_eq_some_iff.mp hr
  refine ⟨s, s', System.Reachable.exec (.start ⟨rfl, fun _ => rfl, rfl⟩) _ hs, hs',
    congrArg Prod.fst hr, fun hu => ?_⟩
  have hl : (s'.client 1).dirCache.locked = true := congrArg Prod.snd hr
  rw [hu.unlocked] at hl
  cases hl

end Growth

end Fusa.Table

import Fusa.Table.DistinctKeys

/-! Concurrent inserts of one key: the call that claimed its slot later clears the one at the larger
address. -/
namespace Fusa.Table.Inserts
open Transition Function Option

variable (hash : Bytes → Hashes)

/-- No slot in the buckets of `key` holds a block that `read_block` accepts for `key`. -/
def Unmatched (m : Memory) (key : Bytes) : Prop :=
  ∀ a, Candidate hash m.dir key a → matchesKey m.block (hash key) key (m.slot a) = false

def AllReturned (s : State) : Prop :=
  (∃ c, (s.calls c).pc = .returned) ∧ ∀ c, (s.calls c).pc = .idle ∨ (s.calls c).pc = .returned

/-- Exactly one slot in the buckets of `key` holds a block with this key. -/
def OneEntry (m : Memory) (key : Bytes) : Prop :=
  ∃! a, Candidate hash m.dir key a ∧ m.HoldsKey a key

/-- The slot that the call claimed still points to its block. -/
def Live (m : Memory) (c : InsertCall) : Prop := c.pc.claimed ∧ m.slot c.slotAddr = c.newSlot

def Shows (c d : InsertCall) (q : ℕ) : Prop := c.addr hash q = d.slotAddr → c.buf.slot q = d.newSlot

/-- The call `c` is going to clear its own slot or that of `d`. -/
def Resolves (c d : InsertCall) : Prop :=
  match c.pc with
  | .check0 => True
  | .check1 => ∀ q < 28, posGroup q = 0 → Shows hash c c q ∧ Shows hash c d q
  | .delete l => ∃ q ∈ l, (c.addr hash q = c.slotAddr ∧ c.buf.slot q = c.newSlot) ∨
      (c.addr hash q = d.slotAddr ∧ c.buf.slot q = d.newSlot)
  | _ => False

def Settles (s : State) : Prop :=
  ∀ i j, i ≠ j → (s.calls i).key = (s.calls j).key → Live s.mem (s.calls i) →
    Live s.mem (s.calls j) →
      Resolves hash (s.calls i) (s.calls j) ∨ Resolves hash (s.calls j) (s.calls i)

variable {hash} {m m' m₀ : Memory} {c c' d : InsertCall} {s t : State} {key : Bytes}

theorem CallInv.claimed_step (h : CallInv hash m c) (hs : InsertStep hash m c m' c')
    (hc : c.pc.claimed) : c'.pc.claimed ∧ c'.slotAddr = c.slotAddr := by
  have ha := h.atPc
  cases hs with
  | find0 hpc | pick hpc _ _ | claim hpc _ | lost hpc _ => simp [hpc, InsertPc.claimed] at hc
  | full hpc =>
    rcases hpc with hpc | hpc
    · simp [hpc, InsertPc.claimed] at hc
    · simp [AtPc, hpc] at ha
  | check0 | changed => exact ⟨rfl, rfl⟩
  | check1 hpc =>
    refine ⟨?_, rfl⟩
    dsimp only [InsertCall.check]
    split
    · rfl
    · split <;> rfl
  | clear hpc _ =>
    refine ⟨?_, rfl⟩
    split <;> rfl
  | moveWait hpc | moveDir hpc _ | move0 hpc | move1 hpc _ _ | moveClaim hpc _ | moveLost hpc _
    | moveClear hpc => simp [AtPc, hpc] at ha

theorem claimed_or_check0 (hs : InsertStep hash m c m' c') (hc : c'.pc.claimed) :
    c.pc.claimed ∨ (c'.pc = .check0 ∧ Live m' c') := by
  cases hs with
  | find0 | full | pick | lost => simp [InsertPc.claimed] at hc
  | claim => exact .inr ⟨rfl, rfl, update_self ..⟩
  | check0 hpc | check1 hpc | moveWait hpc | moveDir hpc _ | move0 hpc | move1 hpc _ _
    | moveClaim hpc _ | moveLost hpc _ | moveClear hpc | clear hpc _ | changed hpc _ =>
    exact .inl (hpc ▸ rfl)

theorem CallInv.slot_step (h : CallInv hash m c) (hs : InsertStep hash m c m' c') (a : ℕ) :
    m'.slot a = m.slot a ∨ m'.slot a = .null ∨
      (m'.slot a = c'.newSlot ∧ a = c'.slotAddr ∧ c'.pc.claimed ∧ ¬ c.pc.claimed) := by
  have ha := h.atPc
  cases hs with
  | claim hpc hm =>
    by_cases hx : a = c.slotAddr
    · subst hx
      exact .inr (.inr ⟨update_self .., rfl, rfl, by simp [hpc, InsertPc.claimed]⟩)
    · exact .inl (update_of_ne hx _ _)
  | @clear q l hpc hm =>
    by_cases hx : a = c.addr hash q
    · subst hx
      exact .inr (.inl (update_self ..))
    · exact .inl (update_of_ne hx _ _)
  | moveClaim hpc _ | moveClear hpc => simp [AtPc, hpc] at ha
  | _ => exact .inl rfl

variable {i j q : ℕ} {a : Action}

theorem Live.of_step (hinv : Inv hash m₀ s) (hs : InsertStep hash s.mem (s.calls i) m' c')
    (hij : i ≠ j) (h : Live m' (s.calls j)) : Live s.mem (s.calls j) := by
  have hj := ne_idle_of_claimed h.1
  refine ⟨h.1, ?_⟩
  rcases (hinv.call i).slot_step hs (s.calls j).slotAddr with hm | hm | ⟨hm, -⟩
  · exact hm.symm.trans h.2
  · exact absurd (h.2.symm.trans hm) ((hinv.call j).newSlot_ne hj)
  · refine absurd (congrArg Slot.pointer (h.2.symm.trans hm)) ?_
    rw [(step_args hs).2.2]
    exact (hinv.pointer_ne i j hij (step_pc_ne_idle hs) hj).symm

theorem Live.of_own_step (h : CallInv hash m c) (hs : InsertStep hash m c m' c')
    (hl : Live m' c') (hc : c.pc.claimed) : Live m c := by
  have haddr := (h.claimed_step hs hc).2
  have hnew := (step_args hs).2.2
  refine ⟨hc, ?_⟩
  rw [← haddr, ← hnew, ← hl.2]
  rcases h.slot_step hs c'.slotAddr with hm | hm | ⟨-, -, -, hn⟩
  · exact hm.symm
  · refine absurd (hnew.symm.trans (hl.2.symm.trans hm)) (h.newSlot_ne (ne_idle_of_claimed hc))
  · exact absurd hc hn

theorem CallInv.shows_read (h : CallInv hash m c) (hd : m.slot d.slotAddr = d.newSlot) {r : ℕ}
    (hg : posGroup q = r) (hq : c.base = (m.dir.entry (hash c.key)).pointer) :
    Shows hash { c with buf := c.read hash m r } d q := by
  intro ha
  have hslot : (c.read hash m r).slot q = m.slot (c.addr hash q) := by
    rw [InsertCall.addr, hq, ← h.entry_eq]
    exact if_pos hg
  rwa [← hd, ← ha]

theorem CallInv.accepts_of_shows (hd : CallInv hash m d) (hdi : d.pc ≠ .idle) (hkey : c.key = d.key)
    (hfp : c.newSlot.fp = getFingerprint (hash c.key).h0) {buf : Buf}
    (hs : buf.slot q = d.newSlot) : { c with buf := buf }.accepts hash m q := by
  simp only [InsertCall.accepts, decide_eq_true_eq, hs, hd.block hdi, hd.newSlot_fp hdi, hfp, hkey]
  exact ⟨hd.newSlot_ne hdi, trivial, .inr (by simp [readBlock_self ⟨d.key, d.value⟩])⟩

section
variable (hw : WellFormed hash m) (h : CallInv hash m c) (hd : CallInv hash m d)
include hw h hd

theorem Resolves.check1 (hkey : c.key = d.key) (hne : c.newSlot.pointer ≠ d.newSlot.pointer)
    (hcl : Live m c) (hdl : Live m d) (hpc : c.pc = .check1) (hr : Resolves hash c d) :
    Resolves hash
      { c with
        buf := c.read hash m 1, pc := { c with buf := c.read hash m 1 }.check hash m } d := by
  have hat := h.atPc
  simp only [AtPc, hpc] at hat
  simp only [Resolves, hpc] at hr
  have hci := ne_idle_of_claimed hcl.1
  have hdi := ne_idle_of_claimed hdl.1
  let c₁ := { c with buf := c.read hash m 1 }
  -- both pairs of buckets show both slots
  have hshow : ∀ q < 28, Shows hash c₁ c q ∧ Shows hash c₁ d q := by
    intro q hq
    rcases posGroup_lt q with hg | hg
    · have hslot : (c.read hash m 1).slot q = c.buf.slot q := if_neg (by omega)
      obtain ⟨h1, h2⟩ := hr q hq hg
      exact ⟨fun ha => hslot.trans (h1 ha), fun ha => hslot.trans (h2 ha)⟩
    · exact ⟨h.shows_read hcl.2 hg hat.2.1, h.shows_read hdl.2 hg hat.2.1⟩
  obtain ⟨p, hp, hpa⟩ := h.own hcl.1
  obtain ⟨q, hq, hqa⟩ := hd.own hdl.1
  rw [← hkey] at hqa
  rw [← hat.2.1] at hpa hqa
  have hfp := h.newSlot_fp hci
  have hap : c₁.accepts hash m p := h.accepts_of_shows hci rfl hfp ((hshow p hp).1 hpa.symm)
  have haq : c₁.accepts hash m q := hd.accepts_of_shows hdi hkey hfp ((hshow q hq).2 hqa.symm)
  -- so the larger address is among those to be cleared
  have hrest : ∃ r ∈ (c₁.duplicates hash m).rest,
      (c.addr hash r = c.slotAddr ∧ (c.read hash m 1).slot r = c.newSlot) ∨
        (c.addr hash r = d.slotAddr ∧ (c.read hash m 1).slot r = d.newSlot) := by
    have haddr : c.slotAddr ≠ d.slotAddr := by
      intro he
      exact hne (congrArg Slot.pointer (hcl.2.symm.trans (he ▸ hdl.2)))
    rcases Nat.lt_or_gt_of_ne haddr with hlt | hlt
    · obtain ⟨r, hr, hra⟩ := LeastScan.exists_mem_rest (mem_positions.mpr hp) hap
        (mem_positions.mpr hq) haq (lt_of_eq_of_lt hpa.symm (lt_of_lt_of_eq hlt hqa))
      have hrd : c.addr hash r = d.slotAddr := hra.trans hqa.symm
      have hr28 := mem_positions.mp (LeastScan.mem_of_mem_rest hr).1
      exact ⟨r, hr, .inr ⟨hrd, (hshow r hr28).2 hrd⟩⟩
    · obtain ⟨r, hr, hra⟩ := LeastScan.exists_mem_rest (mem_positions.mpr hq) haq
        (mem_positions.mpr hp) hap (lt_of_eq_of_lt hqa.symm (lt_of_lt_of_eq hlt hpa))
      have hrc : c.addr hash r = c.slotAddr := hra.trans hpa.symm
      have hr28 := mem_positions.mp (LeastScan.mem_of_mem_rest hr).1
      exact ⟨r, hr, .inl ⟨hrc, (hshow r hr28).1 hrc⟩⟩
  rw [check_eq hw h hpc, if_neg]
  · exact hrest
  · intro hlen
    obtain ⟨r, hr, -⟩ := hrest
    have hnil : (c₁.duplicates hash m).rest = [] :=
      (LeastScan.rest_eq_nil_iff nodup_positions).mpr hlen
    rw [hnil] at hr
    cases hr

/-- As long as both slots are in place, the call stays about to clear one of them. -/
theorem Resolves.step (hkey : c.key = d.key) (hne : c.newSlot.pointer ≠ d.newSlot.pointer)
    (hcl : Live m c) (hdl : Live m d) (hr : Resolves hash c d) (hs : InsertStep hash m c m' c')
    (hcl' : Live m' c') (hdl' : Live m' d) : Resolves hash c' d := by
  cases hs with
  | check0 hpc =>
    intro q hq hg
    have hslot : (c.read hash m 0).slot q =
        m.slot (posAddr (c.entry hash).pointer (hash c.key) q) := if_pos hg
    exact ⟨fun ha => hslot.trans ((congrArg m.slot ha).trans hcl.2),
      fun ha => hslot.trans ((congrArg m.slot ha).trans hdl.2)⟩
  | check1 hpc => exact hr.check1 hw h hd hkey hne hcl hdl hpc
  | @clear q l hpc hm =>
    simp only [Resolves, hpc] at hr
    obtain ⟨r, hrl, hr⟩ := hr
    rcases List.mem_cons.mp hrl with rfl | hrl
    · -- the slot just cleared was one of the two
      rcases hr with ⟨ha, -⟩ | ⟨ha, -⟩
      · have hnull := hcl'.2
        simp only [ha, update_self] at hnull
        exact absurd hnull.symm (h.newSlot_ne (by simp [hpc]))
      · have hnull := hdl'.2
        simp only [ha, update_self] at hnull
        exact absurd hnull.symm (hd.newSlot_ne (ne_idle_of_claimed hdl.1))
    · have hl : l ≠ [] := List.ne_nil_of_mem hrl
      rw [hm, Buf.setSlot_self]
      simp only [Resolves, if_neg hl]
      exact ⟨r, hrl, hr⟩
  | changed hpc hm => trivial
  | full hpc => rcases hpc with hpc | hpc <;> simp [Resolves, hpc] at hr
  | find0 hpc | pick hpc _ _ | claim hpc _ | lost hpc _ | moveWait hpc | moveDir hpc _ | move0 hpc
    | move1 hpc _ _ | moveClaim hpc _ | moveLost hpc _ | moveClear hpc =>
    simp [Resolves, hpc] at hr

end

theorem Resolves.of_slotAddr (h : Resolves hash d c) (ha : c'.slotAddr = c.slotAddr)
    (hn : c'.newSlot = c.newSlot) : Resolves hash d c' := by
  simpa only [Resolves, Shows, ha, hn] using h

theorem Settles.start (h : (system hash m₀).start s) : Settles hash s := by
  intro i j _ _ hi
  have hc := hi.1
  simp [(h.2 i).1, InsertPc.claimed] at hc

theorem Settles.pair (h : Settles hash s) (hinv : Inv hash m₀ s)
    (hs : InsertStep hash s.mem (s.calls i) m' c') (hij : i ≠ j) (hkey : c'.key = (s.calls j).key)
    (hi : Live m' c') (hj : Live m' (s.calls j)) :
    Resolves hash c' (s.calls j) ∨ Resolves hash (s.calls j) c' := by
  obtain ⟨hk, -, hn⟩ := step_args hs
  have hjl := hj.of_step hinv hs hij
  rcases claimed_or_check0 hs hi.1 with hc | ⟨hc, -⟩
  · have hil := hi.of_own_step (hinv.call i) hs hc
    have hne := hinv.pointer_ne i j hij (step_pc_ne_idle hs) (ne_idle_of_claimed hj.1)
    rcases h i j hij (hk ▸ hkey) hil hjl with hr | hr
    · exact .inl (hr.step hinv.wellFormed (hinv.call i) (hinv.call j) (hk ▸ hkey) hne hil hjl hs
        hi hj)
    · exact .inr (hr.of_slotAddr ((hinv.call i).claimed_step hs hc).2 hn)
  · exact .inl (by simp [Resolves, hc])

theorem Settles.step (h : Settles hash s) (hinv : Inv hash m₀ s)
    (hn : (system hash m₀).next s a = some t) : Settles hash t := by
  cases next_cases hn with
  | @call c key value pointer hpc hp hb =>
    intro i j hij hkey hi hj
    have hne : ∀ d, Live (s.mem.writeBlock key value pointer)
        (update s.calls c
          { s.calls c with
            key := key, value := value, newSlot := blockSlot hash key value pointer
            pc := .find0 } d) → d ≠ c := by
      rintro d hd rfl
      have := hd.1
      simp [InsertPc.claimed] at this
    simp only [update_of_ne (hne i hi), update_of_ne (hne j hj)] at hkey hi hj ⊢
    exact h i j hij hkey hi hj
  | @step c m' c' hs =>
    intro i j hij hkey hi hj
    by_cases hic : i = c
    · subst hic
      simp only [update_self, update_of_ne (Ne.symm hij)] at hkey hi hj ⊢
      exact h.pair hinv hs hij hkey hi hj
    · simp only [update_of_ne hic] at hkey hi hj ⊢
      by_cases hjc : j = c
      · subst hjc
        simp only [update_self] at hkey hi hj ⊢
        exact (h.pair hinv hs (Ne.symm hij) hkey.symm hj hi).symm
      · simp only [update_of_ne hjc] at hkey hi hj ⊢
        exact h i j hij hkey (hi.of_step hinv hs (Ne.symm hic)) (hj.of_step hinv hs (Ne.symm hjc))

/-- The slot is empty or points to the block of the call that claimed it. -/
def Fresh (s : State) (a : ℕ) : Prop :=
  s.mem.slot a = .null ∨ ∃ c, Live s.mem (s.calls c) ∧ (s.calls c).slotAddr = a

/-- All calls insert `key`, and a slot is as it was in `m₀` until a call claims it. -/
structure Own (m₀ : Memory) (key : Bytes) (s : State) : Prop where
  key : ∀ c, (s.calls c).pc ≠ .idle → (s.calls c).key = key
  slot : ∀ a, s.mem.slot a = m₀.slot a ∨ Fresh s a
  claimed : ∀ c, (s.calls c).pc.claimed → Fresh s (s.calls c).slotAddr

section
variable (hi : CallInv hash s.mem (s.calls i)) (hs : InsertStep hash s.mem (s.calls i) m' c')
include hi hs

theorem fresh_of_ne (a : ℕ) : m'.slot a = s.mem.slot a ∨
      Fresh { mem := m', calls := update s.calls i c' } a := by
  rcases hi.slot_step hs a with hm | hm | ⟨hm, ha, hc, -⟩
  · exact .inl hm
  · exact .inr (.inl hm)
  · subst ha
    refine .inr (.inr ⟨i, ?_, ?_⟩) <;> simp only [update_self]
    exact ⟨hc, hm⟩

theorem Fresh.step {a : ℕ} (h : Fresh s a) :
    Fresh { mem := m', calls := update s.calls i c' } a := by
  rcases fresh_of_ne hi hs a with hm | hf
  · rcases h with h | ⟨c, hc, rfl⟩
    · exact .inl (hm.trans h)
    · refine .inr ⟨c, ?_⟩
      by_cases hci : c = i
      · subst hci
        obtain ⟨hcl, haddr⟩ := hi.claimed_step hs hc.1
        simp only [update_self]
        exact ⟨⟨hcl, by rw [haddr, hm, hc.2, (step_args hs).2.2]⟩, haddr⟩
      · simp only [update_of_ne hci]
        exact ⟨⟨hc.1, hm.trans hc.2⟩, trivial⟩
  · exact hf

end

theorem Own.start (h : (system hash m₀).start s) : Own m₀ key s :=
  ⟨fun c hc => absurd (h.2 c).1 hc, fun a => .inl (by rw [h.1]),
    fun c hc => absurd (h.2 c).1 (ne_idle_of_claimed hc)⟩

theorem Own.step (h : Own m₀ key s) (hinv : Inv hash m₀ s) (hk : KeysIn (· = key) s a)
    (hn : (system hash m₀).next s a = some t) : Own m₀ key t := by
  cases next_cases hn with
  | @call c key' value pointer hpc hp hb =>
    have hfresh : ∀ a, Fresh s a → Fresh
        { mem := s.mem.writeBlock key' value pointer
          calls := update s.calls c
            { s.calls c with
              key := key', value := value, newSlot := blockSlot hash key' value pointer
              pc := .find0 } } a := by
      rintro a (ha | ⟨d, hd, rfl⟩)
      · exact .inl ha
      · have hdc : d ≠ c := by
          rintro rfl
          exact absurd hpc (ne_idle_of_claimed hd.1)
        refine .inr ⟨d, ?_⟩
        simp only [update_of_ne hdc]
        exact ⟨hd, trivial⟩
    refine ⟨(forall_update_iff s.calls fun _ c => c.pc ≠ .idle → c.key = key).mpr
      ⟨fun _ => hk, fun d _ => h.key d⟩, fun a => (h.slot a).imp id (hfresh a), fun d hd => ?_⟩
    · have hdc : d ≠ c := by
        rintro rfl
        simp [InsertPc.claimed] at hd
      simp only [update_of_ne hdc] at hd ⊢
      exact hfresh _ (h.claimed d hd)
  | @step c m' c' hs =>
    refine ⟨(forall_update_iff s.calls fun _ c => c.pc ≠ .idle → c.key = key).mpr
      ⟨fun _ => ?_, fun d _ => h.key d⟩, fun a => ?_, fun d hd => ?_⟩
    · rw [(step_args hs).1]
      exact h.key c (step_pc_ne_idle hs)
    · rcases fresh_of_ne (hinv.call c) hs a with hm | hf
      · exact (h.slot a).imp hm.trans fun hf => hf.step (hinv.call c) hs
      · exact .inr hf
    · by_cases hdc : d = c
      · subst hdc
        simp only [update_self] at hd ⊢
        rcases claimed_or_check0 hs hd with hold | ⟨-, hl⟩
        · rw [((hinv.call d).claimed_step hs hold).2]
          exact (h.claimed d hold).step (hinv.call d) hs
        · exact .inr ⟨d, by simpa only [update_self] using hl, by simp⟩
      · simp only [update_of_ne hdc] at hd ⊢
        exact (h.claimed d hd).step (hinv.call c) hs

theorem Inv.holdsKey_of_live (hinv : Inv hash m₀ s) {c : ℕ} (h : Live s.mem (s.calls c)) :
    s.mem.HoldsKey (s.calls c).slotAddr (s.calls c).key :=
  ⟨_, (hinv.call c).holds (ne_idle_of_claimed h.1) h.2, rfl⟩

section
variable (hw : WellFormed hash m₀) (hk : Unmatched hash m₀ key) (h : Own m₀ key s)
include hw hk h

/-- What still stands as in `m₀` is not taken for a duplicate. -/
theorem trust_of_unmatched (hinv : Inv hash m₀ s) : Trust hash s := by
  intro c q hc hq a ha hne hfp hacc
  have hkey := h.key c (ne_idle_of_claimed hc)
  have hfresh : Fresh s a := by
    rcases h.slot a with hm | hf
    · rcases hacc with rfl | hacc
      · exact h.claimed c hc
      · -- an old slot that `read_block` accepts
        exfalso
        obtain ⟨b, hb, -⟩ := hw.stored a (hm ▸ hne)
        have hmatch : matchesKey m₀.block (hash key) key (m₀.slot a) = true := by
          rw [hkey, hm, hinv.kept _ _ hb] at hacc
          rw [(hinv.call c).newSlot_fp (ne_idle_of_claimed hc), hkey, hm] at hfp
          simp only [matchesKey, decide_eq_true_eq, hb]
          exact ⟨hm ▸ hne, hfp, hacc⟩
        have hfalse := hk a ⟨q, hq, by rw [ha, hkey, hinv.dir]⟩
        simp [hmatch] at hfalse
    · exact hf
  rcases hfresh with hnull | ⟨d, hd, rfl⟩
  · exact absurd hnull hne
  · rw [hkey, ← h.key d (ne_idle_of_claimed hd.1)]
    exact hinv.holdsKey_of_live hd

theorem Own.live_of_holdsKey (hinv : Inv hash m₀ s) {a : ℕ} (ha : s.mem.HoldsKey a key) :
    ∃ c, Live s.mem (s.calls c) ∧ (s.calls c).slotAddr = a := by
  obtain ⟨b, hb, rfl⟩ := ha
  rcases h.slot a with hm | hnull | hlive
  · exfalso
    have hne : m₀.slot a ≠ .null := hm ▸ hb.1
    obtain ⟨b', hb', hfp, hc⟩ := hw.stored a hne
    have hbb : b' = b := by
      have := hinv.kept _ _ hb'
      rw [← hm] at this
      exact some.inj (this.symm.trans hb.2)
    subst hbb
    have hfalse := hk a hc
    simp [matchesKey, hne, hfp, hb', readBlock_self] at hfalse
  · exact absurd hnull hb.1
  · exact hlive

end

/-- After concurrent inserts of a key that nothing stored is taken for, one slot holds it. -/
theorem oneEntry_of_unmatched (hw : WellFormed hash m₀) (hk : Unmatched hash m₀ key)
    (h : (system hash m₀).RunWith (KeysIn (· = key)) s) (hall : AllReturned s) :
    OneEntry hash s.mem key := by
  have hinvs : Inv hash m₀ s ∧ Own m₀ key s ∧ Settles hash s ∧ Survives hash s := by
    refine h.invariant
      (P := fun s => Inv hash m₀ s ∧ Own m₀ key s ∧ Settles hash s ∧ Survives hash s)
      (fun s hs => ⟨.start hw hs, .start hs, .start hs, .start hs⟩) ?_
    rintro s a t ⟨hinv, hown, hset, hsv⟩ hc hn
    exact ⟨hinv.step hn, hown.step hinv hc hn, hset.step hinv hn,
      hsv.next hinv (trust_of_unmatched hw hk hown hinv) hn⟩
  obtain ⟨hinv, hown, hset, hsv⟩ := hinvs
  obtain ⟨⟨c, hc⟩, hall⟩ := hall
  have hkey := hown.key c (by simp [hc])
  obtain ⟨a, ha⟩ := hsv key (.inr ⟨c, by simp [hc, InsertPc.claimed], hkey⟩)
  refine ⟨a, ⟨?_, ha.holds⟩, fun x hx => ?_⟩
  · obtain ⟨b, hb, rfl⟩ := ha.holds
    obtain ⟨b', hb', -, hcand⟩ := hinv.wellFormed.stored a hb.1
    rwa [← hb.unique ⟨hb.1, hb'⟩] at hcand
  · -- two slots would belong to two calls, and neither is going to clear one any more
    obtain ⟨i, hi, rfl⟩ := hown.live_of_holdsKey hw hk hinv ha.holds
    obtain ⟨j, hj, rfl⟩ := hown.live_of_holdsKey hw hk hinv hx.2
    by_contra hne
    have hij : i ≠ j := by
      rintro rfl
      exact hne rfl
    have hdone : ∀ d, Live s.mem (s.calls d) → (s.calls d).pc = .returned := fun d hd =>
      (hall d).resolve_left (ne_idle_of_claimed hd.1)
    have hkeys := (hown.key i (ne_idle_of_claimed hi.1)).trans
      (hown.key j (ne_idle_of_claimed hj.1)).symm
    rcases hset i j hij hkeys hi hj with hr | hr
    · simp [Resolves, hdone i hi] at hr
    · simp [Resolves, hdone j hj] at hr

/-! ### Runs of a few calls -/

def Callers (n : ℕ) (_ : State) : Action → Prop
  | .call c _ _ _ => c < n
  | .step c => c < n

theorem idle_of_callers {n : ℕ} (h : (system hash m₀).RunWith (Callers n) s) :
    ∀ c ≥ n, (s.calls c).pc = .idle := by
  refine h.invariant (P := fun s => ∀ c ≥ n, (s.calls c).pc = .idle)
    (fun s hs c _ => (hs.2 c).1) ?_
  intro s a t hs hc hn c hcn
  cases next_cases hn with
  | @call d key value pointer | @step d m' c' =>
    have hdn : d < n := hc
    simpa only [update_of_ne (show c ≠ d by omega)] using hs c hcn

def twoInserts : List Action :=
  [.call 0 longKey [] 64, .call 1 longKey [] 128] ++ List.replicate 3 (.step 0) ++
    List.replicate 5 (.step 1) ++ List.replicate 3 (.step 0) ++ List.replicate 3 (.step 1)

theorem oneEntry_twoInserts : ∃ s : State, (s.calls 0).pc = .returned ∧ (s.calls 1).pc = .returned ∧
      OneEntry hashFunction s.mem longKey := by
  have hrun : ((system hashFunction setup).exec idleState twoInserts).map
      (fun s => ((s.calls 0).pc, (s.calls 1).pc)) = some (.returned, .returned) := by
    decide +kernel
  obtain ⟨s, hs, hpc⟩ := map_eq_some_iff.mp hrun
  obtain ⟨h0, h1⟩ := Prod.mk.injEq .. ▸ hpc
  have hstart : (system hashFunction setup).start idleState := ⟨rfl, fun _ => ⟨rfl, rfl⟩⟩
  have hidle := idle_of_callers (System.RunWith.exec_of_forall (C := Callers 2) (.start hstart)
    (by simp [twoInserts, Callers]) hs)
  refine ⟨s, h0, h1, oneEntry_of_unmatched (wellFormed_setup _) (fun a _ => ?_)
    (System.RunWith.exec_of_forall (.start hstart) (by simp [twoInserts, KeysIn]) hs)
    ⟨⟨0, h0⟩, fun c => ?_⟩⟩
  · simp [matchesKey, setup]
  · have hc : c = 0 ∨ c = 1 ∨ c ≥ 2 := by omega
    rcases hc with rfl | rfl | hc
    · exact .inr h0
    · exact .inr h1
    · exact .inl (hidle c hc)

def shortStored : Memory := storing hashFunction shortKey [] 64

/-- An insert of `l16809430` takes the block of `l` for its own key and clears its own slot. -/
theorem not_oneEntry_shortStored :
    WellFormed hashFunction shortStored ∧ (∀ a, ¬ shortStored.HoldsKey a longKey) ∧
      ∃ s, (system hashFunction shortStored).RunWith (KeysIn (· = longKey)) s ∧ AllReturned s ∧
        ¬ OneEntry hashFunction s.mem longKey := by
  refine ⟨wellFormed_storing [] 64, ?_, ?_⟩
  · rintro a ⟨b, hb, hbk⟩
    have hbb : b = ⟨shortKey, []⟩ := some.inj (hb.2.symm.trans (eq_of_slot_storing hb.1).2.2)
    rw [hbb] at hbk
    exact absurd hbk (by decide)
  · have hrun : ((system hashFunction shortStored).exec ⟨shortStored, fun _ => idleCall⟩
        (insertSteps 0 longKey 128 ++ [.step 0])).map (fun s => ((s.calls 0).pc,
          positions.all fun q =>
            (s.mem.block (s.mem.slot (posAddr (s.mem.dir.entry (hashFunction longKey)).pointer
              (hashFunction longKey) q)).pointer).all fun b => b.key ≠ longKey)) =
        some (.returned, true) := by
      decide +kernel
    obtain ⟨s, hs, hpc⟩ := map_eq_some_iff.mp hrun
    obtain ⟨h0, hnone⟩ := Prod.mk.injEq .. ▸ hpc
    have hstart : (system hashFunction shortStored).start ⟨shortStored, fun _ => idleCall⟩ :=
      ⟨rfl, fun _ => ⟨rfl, rfl⟩⟩
    have hidle := idle_of_callers (System.RunWith.exec_of_forall (C := Callers 1) (.start hstart)
      (by simp [insertSteps, Callers]) hs)
    refine ⟨s, System.RunWith.exec_of_forall (.start hstart) (by simp [insertSteps, KeysIn]) hs,
      ⟨⟨0, h0⟩, fun c => ?_⟩, ?_⟩
    · rcases Nat.eq_zero_or_pos c with rfl | hc
      · exact .inr h0
      · exact .inl (hidle c hc)
    · rintro ⟨a, ⟨⟨q, hq, rfl⟩, b, hb, hbk⟩, -⟩
      have := List.all_eq_true.mp hnone q (mem_positions.mpr hq)
      rw [hb.2] at this
      simp [hbk] at this

end Fusa.Table.Inserts

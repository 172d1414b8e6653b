import Fusa.Table.Inserts

/-! Why concurrent inserts never lose a key: the slot at the least address is cleared only by a call
that has seen the key at a smaller one. -/
namespace Fusa.Table.Inserts
open Transition Function

variable (hash : Bytes → Hashes)

/-- What the loop over duplicates would take as the memory stands holds its key. -/
def Trust (s : State) : Prop :=
  ∀ c q, (s.calls c).pc.claimed → q < 28 →
    ∀ a, a = posAddr (s.mem.dir.entry (hash (s.calls c).key)).pointer (hash (s.calls c).key) q →
      s.mem.slot a ≠ .null → (s.mem.slot a).fp = (s.calls c).newSlot.fp →
      (a = (s.calls c).slotAddr ∨
        ((s.mem.block (s.mem.slot a).pointer).bind (readBlock (s.calls c).key)).isSome) →
      s.mem.HoldsKey a (s.calls c).key

/-- The address `a` is below what a call has seen of its key and may clear. -/
def Below (m : Memory) (c : InsertCall) (a : ℕ) : Prop :=
  match c.pc with
  | .check1 => ∀ q < 28, posGroup q = 0 → c.accepts hash m q → a ≤ c.addr hash q
  | .delete l => ∀ q ∈ l, a < c.addr hash q
  | _ => True

structure Anchor (s : State) (key : Bytes) (a : ℕ) : Prop where
  holds : s.mem.HoldsKey a key
  least : ∀ x, s.mem.HoldsKey x key → a ≤ x
  below : ∀ c, (s.calls c).key = key → Below hash s.mem (s.calls c) a

/-- A key that is stored, or that some call has put into a slot, has a slot that stays. -/
def Survives (s : State) : Prop :=
  ∀ key, ((∃ a, s.mem.HoldsKey a key) ∨ ∃ c, (s.calls c).pc.claimed ∧ (s.calls c).key = key) →
    ∃ a, Anchor hash s key a

variable {hash} {m m' : Memory} {c c' : InsertCall} {s t : State} {a : ℕ} {key : Bytes}
  {x i q pointer : ℕ} {l : List ℕ} {m₀ : Memory} {key' value : Bytes}

theorem Below.mono (h : Below hash m c a) (hx : x ≤ a) : Below hash m c x := by
  unfold Below at h ⊢
  cases hpc : c.pc with
  | check1 =>
    simp only [hpc] at h ⊢
    exact fun q hq hg hacc => hx.trans (h q hq hg hacc)
  | delete l =>
    simp only [hpc] at h ⊢
    exact fun q hq => lt_of_le_of_lt hx (h q hq)
  | _ => trivial

theorem below_of_not_claimed (h : ¬ c.pc.claimed) : Below hash m c a := by
  unfold Below
  cases hpc : c.pc with
  | check1 | delete => simp [hpc, InsertPc.claimed] at h
  | _ => trivial

theorem below_congr (h : CallInv hash m c) (hb : ∀ p b, m.block p = some b → m'.block p = some b) :
    Below hash m c a → Below hash m' c a := by
  intro hbelow
  unfold Below at hbelow ⊢
  cases hpc : c.pc with
  | check1 =>
    simp only [hpc] at hbelow ⊢
    have ha := h.atPc
    simp only [AtPc, hpc] at ha
    intro q hq hg hacc
    refine hbelow q hq hg ?_
    simp only [InsertCall.accepts, decide_eq_true_eq] at hacc ⊢
    obtain ⟨b, hpb⟩ := ha.2.2.2 q hg hacc.1
    rwa [hb _ _ hpb, ← hpb] at hacc
  | delete l => simpa [hpc] using hbelow
  | _ => trivial

theorem Trust.of_read (ht : Trust hash s) (hi : CallInv hash s.mem (s.calls i))
    (hc : (s.calls i).pc.claimed) {r base : ℕ} (hq : q < 28) (hg : posGroup q = r)
    (hbase : base = (s.mem.dir.entry (hash (s.calls i).key)).pointer)
    (hacc : { s.calls i with base := base, buf := (s.calls i).read hash s.mem r }.accepts
      hash s.mem q) : s.mem.HoldsKey (posAddr base (hash (s.calls i).key) q) (s.calls i).key := by
  have hslot : ((s.calls i).read hash s.mem r).slot q =
      s.mem.slot (posAddr base (hash (s.calls i).key) q) := by
    rw [hbase, ← hi.entry_eq]
    exact if_pos hg
  simp only [InsertCall.accepts, InsertCall.addr, decide_eq_true_eq, hslot] at hacc
  exact ht i q hc hq _ (by rw [hbase]) hacc.1 hacc.2.1 hacc.2.2

theorem Anchor.step {slot : ℕ → Slot} (ha : Anchor hash s key a) (hx : x ≤ a)
    (hholds : { s.mem with slot := slot }.HoldsKey x key)
    (hleast : ∀ y, { s.mem with slot := slot }.HoldsKey y key → x ≤ y)
    (hi : c'.key = key → Below hash s.mem c' x) :
    Anchor hash
      { mem := { s.mem with slot := slot }, calls := update s.calls i c' } key x := by
  refine ⟨hholds, hleast, fun d hd => ?_⟩
  by_cases hdi : d = i
  · subst hdi
    simp only [update_self] at hd ⊢
    exact hi hd
  · simp only [update_of_ne hdi] at hd ⊢
    exact (ha.below d hd).mono hx

theorem claimed_of_update
    (h : ∃ d, (update s.calls i c' d).pc.claimed ∧ (update s.calls i c' d).key = key)
    (hkey : c'.key = (s.calls i).key) (hc : c'.pc.claimed → (s.calls i).pc.claimed) :
    ∃ d, (s.calls d).pc.claimed ∧ (s.calls d).key = key := by
  obtain ⟨d, hd, hdk⟩ := h
  by_cases hdi : d = i
  · subst hdi
    rw [update_self] at hd hdk
    exact ⟨d, hc hd, hkey ▸ hdk⟩
  · rw [update_of_ne hdi] at hd hdk
    exact ⟨d, hd, hdk⟩

theorem Trust.holdsKey_delete (ht : Trust hash s) (hinv : Inv hash m s)
    (hpc : (s.calls i).pc = .delete (q :: l))
    (hm : s.mem.slot ((s.calls i).addr hash q) = (s.calls i).buf.slot q) :
    s.mem.HoldsKey ((s.calls i).addr hash q) (s.calls i).key := by
  have hat := (hinv.call i).atPc
  simp only [AtPc, hpc] at hat
  obtain ⟨hq, hacc⟩ := hat.2.2.2 q (by simp)
  simp only [InsertCall.accepts, decide_eq_true_eq, ← hm] at hacc
  exact ht i q (by simp [hpc, InsertPc.claimed]) hq _ (by rw [InsertCall.addr, hat.2.1]) hacc.1
    hacc.2.1 hacc.2.2

theorem Survives.quiet (h : Survives hash s) (hkey : c'.key = (s.calls i).key)
    (hc : c'.pc.claimed → (s.calls i).pc.claimed)
    (hb : ∀ a, Anchor hash s (s.calls i).key a → Below hash s.mem c' a) :
    Survives hash { s with calls := update s.calls i c' } := by
  intro key hex
  obtain ⟨a, ha⟩ := h key (hex.imp id fun hd => claimed_of_update hd hkey hc)
  refine ⟨a, ha.step le_rfl ha.holds ha.least fun hk => hb a ?_⟩
  rwa [← hkey, hk]

theorem Anchor.check0 (ht : Trust hash s) (hi : CallInv hash s.mem (s.calls i))
    (hpc : (s.calls i).pc = .check0) (ha : Anchor hash s (s.calls i).key a) :
    Below hash s.mem
      { s.calls i with
        base := ((s.calls i).entry hash).pointer, buf := (s.calls i).read hash s.mem 0
        pc := .check1 } a := by
  intro q hq hg hacc
  exact ha.least _
    (ht.of_read hi (by simp [hpc, InsertPc.claimed]) hq hg (by rw [hi.entry_eq]) hacc)

theorem Anchor.check1 (hw : WellFormed hash s.mem) (ht : Trust hash s)
    (hi : CallInv hash s.mem (s.calls i)) (hpc : (s.calls i).pc = .check1)
    (ha : Anchor hash s (s.calls i).key a) :
    Below hash s.mem
      { s.calls i with
        buf := (s.calls i).read hash s.mem 1
        pc := { s.calls i with buf := (s.calls i).read hash s.mem 1 }.check hash s.mem } a := by
  rw [check_eq hw hi hpc]
  have hat := hi.atPc
  simp only [AtPc, hpc] at hat
  have hold := ha.below i rfl
  simp only [Below, hpc] at hold
  split
  · trivial
  · intro q hq
    obtain ⟨p, hp, hacc, hlt⟩ := LeastScan.exists_lt_of_mem_rest hq
    refine lt_of_le_of_lt ?_ hlt
    have hp := mem_positions.mp hp
    rcases posGroup_lt p with hg | hg
    · -- read before, so already known to lie above
      refine hold p hp hg ?_
      rwa [InsertCall.accepts_congr (if_neg (by omega))] at hacc
    · exact ha.least _ (ht.of_read hi (by simp [hpc, InsertPc.claimed]) hp hg hat.2.1 hacc)

theorem holdsKey_update {b : Block} {slot : Slot} (hb : m.block slot.pointer = some b)
    (hne : slot ≠ .null) :
    { m with slot := update m.slot a slot }.HoldsKey x key ↔
      (x = a ∧ b.key = key) ∨ (x ≠ a ∧ m.HoldsKey x key) := by
  by_cases hx : x = a
  · subst hx
    simp [Memory.HoldsKey, Memory.Holds, hb, hne]
  · simp [Memory.HoldsKey, Memory.Holds, hx]

theorem holdsKey_clear :
    { m with slot := update m.slot a .null }.HoldsKey x key ↔
      x ≠ a ∧ m.HoldsKey x key := by
  by_cases hx : x = a
  · subst hx
    simp [Memory.HoldsKey, Memory.Holds]
  · simp [Memory.HoldsKey, Memory.Holds, hx]

/-- A claimed slot joins the slots of its key, perhaps as the least of them. -/
theorem Survives.claim (h : Survives hash s) (hinv : Inv hash m s) (hpc : (s.calls i).pc = .claim q)
    (hm : s.mem.slot (s.calls i).slotAddr = (s.calls i).buf.slot q) :
    Survives hash
      { mem :=
          { s.mem with
            slot := update s.mem.slot (s.calls i).slotAddr (s.calls i).newSlot }
        calls := update s.calls i
          { s.calls i with
            buf := (s.calls i).buf.setSlot q (s.mem.slot (s.calls i).slotAddr)
            pc := .check0 } } := by
  have hat := (hinv.call i).atPc
  simp only [AtPc, hpc] at hat
  have hne : (s.calls i).pc ≠ .idle := by simp [hpc]
  have hempty : ∀ key, ¬ s.mem.HoldsKey (s.calls i).slotAddr key := by
    rintro key ⟨b, hb, -⟩
    exact hb.1 (hm.trans hat.2.2.2)
  have hholds : ∀ key x,
      { s.mem with
        slot := update s.mem.slot (s.calls i).slotAddr (s.calls i).newSlot }.HoldsKey
          x key ↔
        (x = (s.calls i).slotAddr ∧ (s.calls i).key = key) ∨ s.mem.HoldsKey x key := by
    intro key x
    rw [holdsKey_update ((hinv.call i).block hne) ((hinv.call i).newSlot_ne hne)]
    by_cases hx : x = (s.calls i).slotAddr
    · simp [hx, hempty key]
    · simp [hx]
  intro key hex
  by_cases hold : (∃ a, s.mem.HoldsKey a key) ∨
      ∃ c, (s.calls c).pc.claimed ∧ (s.calls c).key = key
  · obtain ⟨a, ha⟩ := h key hold
    by_cases hx : (s.calls i).key = key ∧ (s.calls i).slotAddr < a
    · refine ⟨_, ha.step hx.2.le ((hholds _ _).mpr (.inl ⟨rfl, hx.1⟩)) (fun y hy => ?_)
        fun _ => trivial⟩
      rcases (hholds _ _).mp hy with ⟨rfl, -⟩ | hy
      · exact le_rfl
      · exact hx.2.le.trans (ha.least y hy)
    · refine ⟨a, ha.step le_rfl ((hholds _ _).mpr (.inr ha.holds)) (fun y hy => ?_)
        fun _ => trivial⟩
      rcases (hholds _ _).mp hy with ⟨rfl, hk⟩ | hy
      · exact not_lt.mp fun hlt => hx ⟨hk, hlt⟩
      · exact ha.least y hy
  · -- the first slot of its key: no other call has put the key into a slot
    have hk : (s.calls i).key = key := by
      rcases hex with ⟨x, hx⟩ | ⟨d, hd, hdk⟩
      · rcases (hholds _ _).mp hx with ⟨-, hk⟩ | hx
        · exact hk
        · exact absurd (.inl ⟨x, hx⟩) hold
      · by_contra hne'
        refine hold (.inr ⟨d, ?_⟩)
        have hdi : d ≠ i := by
          rintro rfl
          exact hne' (by simpa using hdk)
        simpa [update_of_ne hdi] using And.intro hd hdk
    refine ⟨(s.calls i).slotAddr, (hholds _ _).mpr (.inl ⟨rfl, hk⟩), fun y hy => ?_, fun d hd => ?_⟩
    · rcases (hholds _ _).mp hy with ⟨rfl, -⟩ | hy
      · exact le_rfl
      · exact absurd (.inl ⟨y, hy⟩) hold
    · by_cases hdi : d = i
      · subst hdi
        simp only [update_self]
        trivial
      · simp only [update_of_ne hdi] at hd ⊢
        exact below_of_not_claimed fun hc => hold (.inr ⟨d, hc, hd⟩)

/-- A call clears a slot of its own key, and never the least one. -/
theorem Survives.clear (h : Survives hash s) (hinv : Inv hash m s) (ht : Trust hash s)
    (hpc : (s.calls i).pc = .delete (q :: l))
    (hm : s.mem.slot ((s.calls i).addr hash q) = (s.calls i).buf.slot q) :
    Survives hash
      { mem := { s.mem with slot := update s.mem.slot ((s.calls i).addr hash q) .null }
        calls := update s.calls i
          { s.calls i with
            buf := (s.calls i).buf.setSlot q (s.mem.slot ((s.calls i).addr hash q))
            slotPos := q
            pc := if l = [] then .returned else .delete l } } := by
  have hc : (s.calls i).pc.claimed := by simp [hpc, InsertPc.claimed]
  have hk : s.mem.HoldsKey ((s.calls i).addr hash q) (s.calls i).key :=
    ht.holdsKey_delete hinv hpc hm
  intro key hex
  have hold : (∃ x, s.mem.HoldsKey x key) ∨
      ∃ d, (s.calls d).pc.claimed ∧ (s.calls d).key = key := by
    rcases hex with ⟨x, hx⟩ | hd
    · exact .inl ⟨x, (holdsKey_clear.mp hx).2⟩
    · exact .inr (claimed_of_update hd rfl fun _ => hc)
  obtain ⟨a, ha⟩ := h key hold
  have hbelow : (s.calls i).key = key → ∀ r ∈ q :: l, a < (s.calls i).addr hash r := by
    intro hik
    have := ha.below i hik
    simpa only [Below, hpc] using this
  have hne : a ≠ (s.calls i).addr hash q := by
    intro haq
    have hik : (s.calls i).key = key := hk.unique (haq ▸ ha.holds)
    have := hbelow hik q (by simp)
    omega
  refine ⟨a, ha.step le_rfl (holdsKey_clear.mpr ⟨hne, ha.holds⟩)
    (fun y hy => ha.least y (holdsKey_clear.mp hy).2) fun hik => ?_⟩
  by_cases hl : l = []
  · simp only [Below, if_pos hl]
  · simp only [Below, if_neg hl]
    exact fun r hr => hbelow hik r (List.mem_cons_of_mem q hr)

theorem Survives.start (h : (system hash m₀).start s) : Survives hash s := by
  classical
  intro key hex
  have hidle : ∀ c, ¬ (s.calls c).pc.claimed := by
    intro c
    simp [(h.2 c).1, InsertPc.claimed]
  rcases hex with hex | ⟨c, hc, -⟩
  · exact ⟨Nat.find hex, Nat.find_spec hex, fun x hx => Nat.find_min' hex hx,
      fun c _ => below_of_not_claimed (hidle c)⟩
  · exact absurd hc (hidle c)

theorem holdsKey_writeBlock (hw : WellFormed hash m) (hb : m.block pointer = none) :
    (m.writeBlock key' value pointer).HoldsKey x key ↔ m.HoldsKey x key := by
  constructor
  · rintro ⟨b, hx, rfl⟩
    obtain ⟨b', hb', -⟩ := hw.stored x hx.1
    have := hx.unique ⟨hx.1, writeBlock_of_some hb hb'⟩
    exact ⟨b', ⟨hx.1, hb'⟩, by rw [this]⟩
  · rintro ⟨b, hx, rfl⟩
    exact ⟨b, ⟨hx.1, writeBlock_of_some hb hx.2⟩, rfl⟩

theorem Survives.call (h : Survives hash s) (hinv : Inv hash m s) (hb : s.mem.block pointer = none)
    (hpc : c'.pc = .find0) :
    Survives hash
      { mem := s.mem.writeBlock key' value pointer, calls := update s.calls i c' } := by
  intro key hex
  have hold : (∃ x, s.mem.HoldsKey x key) ∨
      ∃ d, (s.calls d).pc.claimed ∧ (s.calls d).key = key := by
    rcases hex with ⟨x, hx⟩ | ⟨d, hd, hdk⟩
    · exact .inl ⟨x, (holdsKey_writeBlock hinv.wellFormed hb).mp hx⟩
    · have hdi : d ≠ i := by
        rintro rfl
        simp [hpc, InsertPc.claimed] at hd
      simp only [update_of_ne hdi] at hd hdk
      exact .inr ⟨d, hd, hdk⟩
  obtain ⟨a, ha⟩ := h key hold
  refine ⟨a, (holdsKey_writeBlock hinv.wellFormed hb).mpr ha.holds,
    fun x hx => ha.least x ((holdsKey_writeBlock hinv.wellFormed hb).mp hx), fun d hd => ?_⟩
  by_cases hdi : d = i
  · subst hdi
    exact below_of_not_claimed (by simp [hpc, InsertPc.claimed])
  · simp only [update_of_ne hdi] at hd ⊢
    exact below_congr (hinv.call d) (fun _ _ => writeBlock_of_some hb) (ha.below d hd)

theorem Survives.next {a : Action} (h : Survives hash s) (hinv : Inv hash m₀ s) (ht : Trust hash s)
    (hn : (system hash m₀).next s a = some t) : Survives hash t := by
  cases next_cases hn with
  | call hpc hp hb => exact h.call hinv hb rfl
  | @step i m' c' hs =>
    have hunmoved := (hinv.call i).atPc
    cases hs with
    | find0 hpc | full hpc | pick hpc hq hs | lost hpc hm =>
      exact h.quiet rfl (by simp [InsertPc.claimed]) fun _ _ => trivial
    | claim hpc hm => exact h.claim hinv hpc hm
    | check0 hpc =>
      exact h.quiet rfl (by simp [hpc, InsertPc.claimed])
        fun _ ha => ha.check0 ht (hinv.call i) hpc
    | check1 hpc =>
      exact h.quiet rfl (by simp [hpc, InsertPc.claimed])
        fun _ ha => ha.check1 hinv.wellFormed ht (hinv.call i) hpc
    | clear hpc hm => exact h.clear hinv ht hpc hm
    | changed hpc hm =>
      exact h.quiet rfl (by simp [hpc, InsertPc.claimed]) fun _ _ => trivial
    | moveWait hpc | moveDir hpc _ | move0 hpc | move1 hpc _ _ | moveClaim hpc _
      | moveLost hpc _ | moveClear hpc => simp [AtPc, hpc] at hunmoved

end Fusa.Table.Inserts

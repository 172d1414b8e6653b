import Fusa.Table.Mapping
import Fusa.Table.Past

/-! Tables at rest in which every key stands at most once, and the calls that leave them so. -/
namespace Fusa.Table
open Function List Nat

def Memory.Cell (m : Memory) (a : ℕ) : Prop :=
  ∃ i < 2 ^ m.dir.globalDepth, ∃ b j, IsSlot (m.dir.subtables i).pointer b j a

/-- The stored keys are in `K`, each in one of its buckets and in no second slot. -/
structure Tidy (hash : Bytes → Hashes) (K : Bytes → Prop) (m : Memory) : Prop where
  extendible : Extendible hash m
  keys : ∀ c, m.Stores c → K c.key
  placed : ∀ i < 2 ^ m.dir.globalDepth, ∀ b j a c, IsSlot (m.dir.subtables i).pointer b j a →
    m.Holds a c → (m.slot a).fp = getFingerprint (hash c.key).h0 ∧
      ∃ k < 4, bucketNo (hash c.key) k = b
  unique : ∀ a a' c c', m.Cell a → m.Cell a' → m.Holds a c → m.Holds a' c' → c.key = c'.key →
    a = a'

variable {x : Split} {hash : Bytes → Hashes} {K : Bytes → Prop} {alloc : ℕ → ℕ} {m₀ m : Memory}
  {r : Resizer} {key : Bytes} {a q : ℕ} {c : Block} {s : Slot}

theorem Memory.Cell.stores (ha : m.Cell a) (hc : m.Holds a c) : m.Stores c := by
  obtain ⟨i, hi, b, j, hsl⟩ := ha
  exact ⟨i, hi, b, j, a, hsl, hc⟩

theorem cell_posAddr (hash : Bytes → Hashes) (m : Memory) (key : Bytes) (q : ℕ) :
    m.Cell (m.place hash key q) :=
  ⟨_, Nat.mod_lt _ (Nat.two_pow_pos _), _, _, isSlot_posAddr _ _ q⟩

theorem Extendible.pointer_eq (h : Extendible hash m) {i k b j b' j' : ℕ}
    (hi : i < 2 ^ m.dir.globalDepth) (hk : k < 2 ^ m.dir.globalDepth)
    (hsl : IsSlot (m.dir.subtables i).pointer b j a)
    (hsl' : IsSlot (m.dir.subtables k).pointer b' j' a) :
    (m.dir.subtables i).pointer = (m.dir.subtables k).pointer := by
  by_contra hne
  exact (h.apart i hi k hk hne).ne hsl hsl'

theorem Extendible.not_stale (h : Extendible hash m) (key : Bytes) (i : ℕ) :
    m.staleAt hash (m.dir.entry (hash key)) key i = false := by
  refine Bool.eq_false_of_not_eq_true fun hs => ?_
  have hlt : m.dir.index (hash key) < 2 ^ m.dir.globalDepth := Nat.mod_lt _ (Nat.two_pow_pos _)
  exact ((h.stale_iff hlt key rfl i).mp hs).1 rfl

/-! ### What is found -/

section
variable (hK : PrefixFree K) (h : Tidy hash K m)
include hK h

theorem Tidy.exists_position (ha : m.Cell a) (hc : m.Holds a c) :
    ∃ q < 28, a = m.place hash c.key q := by
  have hkey := h.keys c (ha.stores hc)
  obtain ⟨i, hi, b, j, hsl⟩ := ha
  obtain ⟨-, k, hk, rfl⟩ := h.placed i hi b j a c hsl hc
  obtain ⟨c', hc', hmod⟩ := h.extendible.stored i hi _ j a hsl hc.1
  obtain rfl := hc.unique ⟨hc.1, hc'⟩
  rw [Block.storedKey, strncpy_of_nulFree (hK.nulFree _ hkey)] at hmod
  simp only [Memory.place, h.extendible.entry_pointer hi hmod]
  have hj : j < 7 := hsl.slot_lt
  refine ⟨k * kAssociatedWays + j, ?_, ?_⟩
  · simp only [kAssociatedWays]
    omega
  · rw [posAddr_mul_add _ _ _ hsl.slot_lt]
    exact hsl.eq

theorem Tidy.holds_of_matches (hkey : K key) (ha : m.Cell a)
    (hm : matchesKey m.block (hash key) key (m.slot a) = true) :
    ∃ c, m.Holds a c ∧ c.key = key := by
  obtain ⟨c, hc, hr⟩ := exists_readBlock hm
  exact ⟨c, hc, hK.key_eq hkey (h.keys c (ha.stores hc)) hr⟩

theorem Tidy.search_eq (ha : m.Cell a) (hc : m.Holds a c) :
    search hash m m.dir c.key = some (strncpy c.value) := by
  obtain ⟨q, hq, rfl⟩ := h.exists_position hK ha hc
  have hfp : (m.slot (m.place hash c.key q)).fp =
      getFingerprint (hash c.key).h0 := by
    obtain ⟨i, hi, b, j, hsl⟩ := ha
    exact (h.placed i hi b j _ c hsl hc).1
  have hsome := searchAt_isSome hq hc hfp (by rw [readBlock_self]; rfl)
  obtain ⟨v, hv⟩ := Option.isSome_iff_exists.mp hsome
  obtain ⟨q', -, c', hc', hread⟩ := searchAt_eq_some hv
  have ha' := cell_posAddr hash m c.key q'
  have hkey := hK.key_eq (h.keys c (ha.stores hc)) (h.keys c' (ha'.stores hc')) (hread ▸ rfl)
  have heq : posAddr _ _ q = posAddr _ _ q' := h.unique _ _ c c' ha ha' hc hc' hkey.symm
  rw [← heq] at hc'
  obtain rfl := hc.unique hc'
  rw [readBlock_self] at hread
  rw [search_eq_searchAt, hv, hread]

theorem Tidy.absent (hkey : K key) (habs : ∀ c, m.Stores c → c.key ≠ key) : Absent hash m key := by
  intro q _
  refine Bool.eq_false_of_not_eq_true fun hm => ?_
  have ha := cell_posAddr hash m key q
  obtain ⟨c, hc, hck⟩ := h.holds_of_matches hK hkey ha hm
  exact habs c (ha.stores hc) hck

end

/-! ### Changes of one slot -/

theorem Tidy.put (hK : PrefixFree K) (h : Tidy hash K m) (hkey : K key) (hq : q < 28)
    (hs : s ≠ .null → s.fp = getFingerprint (hash key).h0 ∧ ∃ v, m.block s.pointer = some ⟨key, v⟩)
    (hother : ∀ y c, m.Cell y → m.Holds y c → c.key = key → y = m.place hash key q) :
    Tidy hash K (m.setSlot (m.place hash key q) s) := by
  have hm := h.extendible
  have hlt : m.dir.index (hash key) < 2 ^ m.dir.globalDepth := Nat.mod_lt _ (Nat.two_pow_pos _)
  have hown : IsSlot _ _ _ (m.place hash key q) := isSlot_posAddr _ _ q
  generalize haq : m.place hash key q = p at *
  have hcases : ∀ {y c}, (m.setSlot p s).Holds y c →
      (y = p ∧ c.key = key ∧ s.fp = getFingerprint (hash key).h0) ∨ (y ≠ p ∧ m.Holds y c) := by
    intro y c hc
    rcases holds_update.mp hc with ⟨rfl, hne, hb⟩ | hc
    · obtain ⟨hfp, v, hv⟩ := hs hne
      exact .inl ⟨rfl, by rw [Option.some.inj (hb.symm.trans hv)], hfp⟩
    · exact .inr hc
  refine ⟨{ hm with stored := ?_ }, ?_, ?_, ?_⟩
  · intro i hi b j y hsl hne
    by_cases hy : y = p
    · subst hy
      simp only [Memory.setSlot, update_self] at hne ⊢
      obtain ⟨-, v, hv⟩ := hs hne
      refine ⟨_, hv, ?_⟩
      have hp := hm.pointer_eq hlt hi hown hsl
      rw [Block.storedKey, strncpy_of_nulFree (hK.nulFree _ hkey),
        ← hm.mod_eq_of_pointer hi hlt hp, Directory.index,
        mod_mod_of_dvd _ (pow_dvd_pow 2 (hm.localDepth_le i hi))]
    · simp only [Memory.setSlot, update_of_ne hy] at hne ⊢
      exact hm.stored i hi b j y hsl hne
  · rintro c ⟨i, hi, b, j, y, hsl, hc⟩
    rcases hcases hc with ⟨-, hck, -⟩ | ⟨-, hc⟩
    · exact hck ▸ hkey
    · exact h.keys c ⟨i, hi, b, j, y, hsl, hc⟩
  · intro i hi b j y c hsl hc
    rcases hcases hc with ⟨rfl, hck, hfp⟩ | ⟨hy, hc⟩
    · have hp := hm.pointer_eq hlt hi hown hsl
      obtain ⟨hb, -⟩ := hown.inj (hp ▸ hsl)
      simp only [Memory.setSlot, update_self, hck]
      exact ⟨hfp, _, Nat.div_lt_of_lt_mul hq, hb⟩
    · simp only [Memory.setSlot, update_of_ne hy]
      exact h.placed i hi b j y c hsl hc
  · intro y y' c c' hy hy' hc hc' hk
    rcases hcases hc with ⟨hyp, hck, -⟩ | ⟨-, hc⟩ <;>
      rcases hcases hc' with ⟨hyp', hck', -⟩ | ⟨-, hc'⟩
    · rw [hyp, hyp']
    · rw [hyp, hother y' c' hy' hc' (hk.symm.trans hck)]
    · rw [hyp', hother y c hy hc (hk.trans hck')]
    · exact h.unique y y' c c' hy hy' hc hc' hk

section
variable (h : Tidy hash K m) {value : Bytes} {pointer : ℕ} (hf : m.block pointer = none)
include h hf

theorem Tidy.block_writeBlock (ha : m.Cell a) (hne : m.slot a ≠ .null) :
    (m.writeBlock key value pointer).block (m.slot a).pointer = m.block (m.slot a).pointer := by
  obtain ⟨i, hi, b, j, hsl⟩ := ha
  obtain ⟨c, hc, -⟩ := h.extendible.stored i hi b j a hsl hne
  rw [writeBlock_of_some hf hc, hc]

theorem Tidy.holds_of_writeBlock (ha : m.Cell a)
    (hc : (m.writeBlock key value pointer).Holds a c) : m.Holds a c :=
  ⟨hc.1, (h.block_writeBlock hf ha hc.1).symm.trans hc.2⟩

theorem Tidy.writeBlock : Tidy hash K (m.writeBlock key value pointer) := by
  have hm := h.extendible
  refine ⟨{ hm with stored := ?_ }, ?_, ?_, ?_⟩
  · intro i hi b j y hsl hne
    obtain ⟨c, hc, hmod⟩ := hm.stored i hi b j y hsl hne
    exact ⟨c, (h.block_writeBlock hf ⟨i, hi, b, j, hsl⟩ hne).trans hc, hmod⟩
  · rintro c ⟨i, hi, b, j, y, hsl, hc⟩
    exact h.keys c ⟨i, hi, b, j, y, hsl, h.holds_of_writeBlock hf ⟨i, hi, b, j, hsl⟩ hc⟩
  · intro i hi b j y c hsl hc
    exact h.placed i hi b j y c hsl (h.holds_of_writeBlock hf ⟨i, hi, b, j, hsl⟩ hc)
  · intro y y' c c' hy hy' hc hc' hk
    exact h.unique y y' c c' hy hy' (h.holds_of_writeBlock hf hy hc)
      (h.holds_of_writeBlock hf hy' hc') hk

end

/-! ### A split -/

/-- A slot after the split has its word from slot `a₀` before it. -/
def Split.Source (x : Split) (hash : Bytes → Hashes) (m₀ : Memory) (a a₀ : ℕ) : Prop :=
  (a = a₀ ∧ ∀ b j, IsSlot x.oldTable b j a → ¬ x.movesSlot hash m₀ b j) ∨
    ∃ b n j, IsSlot x.newTable b n a ∧ IsSlot x.oldTable b j a₀ ∧
      (x.movers hash m₀ b kAssociatedWays)[n]? = some j

theorem Split.Source.inj {a a' a₀ : ℕ} (h : x.Source hash m₀ a a₀)
    (h' : x.Source hash m₀ a' a₀) : a = a' := by
  have hmoves : ∀ {b n j}, (x.movers hash m₀ b kAssociatedWays)[n]? = some j →
      x.movesSlot hash m₀ b j := fun hj => (Split.mem_movers.mp (mem_of_getElem? hj)).2
  rcases h with ⟨rfl, hstay⟩ | ⟨b, n, j, hn, ho, hj⟩ <;>
    rcases h' with ⟨rfl, hstay'⟩ | ⟨b', n', j', hn', ho', hj'⟩
  · rfl
  · exact absurd (hmoves hj') (hstay b' j' ho')
  · exact absurd (hmoves hj) (hstay' b j ho)
  · obtain ⟨rfl, rfl⟩ := ho.inj ho'
    obtain ⟨hlt, -⟩ := List.getElem?_eq_some_iff.mp hj
    have hnd : (x.movers hash m₀ b kAssociatedWays).Nodup := nodup_range.filter _
    rw [hn.eq, hn'.eq, (List.getElem?_inj hlt hnd).mp (hj.trans hj'.symm)]

section
variable (h₀ : Extendible hash m₀) (hx : Splittable x m₀) (h : Alone x hash alloc m₀ m r)
  (hpc : r.pc = .returned)
include h₀ hx h hpc

theorem Alone.exists_source {i b j : ℕ} (hi : i < 2 ^ m.dir.globalDepth)
    (ha : IsSlot (m.dir.subtables i).pointer b j a) (hne : m.slot a ≠ .null) :
    ∃ k < 2 ^ m₀.dir.globalDepth, ∃ l a₀, IsSlot (m₀.dir.subtables k).pointer b l a₀ ∧
      m₀.slot a₀ = m.slot a ∧ x.Source hash m₀ a a₀ := by
  have hex := h.exact hpc
  have hidx : x.idx < 2 ^ m₀.dir.globalDepth := hx.dir ▸ hx.idx_lt
  have hold : (m₀.dir.subtables x.idx).pointer = x.oldTable := by rw [← hx.dir]; rfl
  rcases h.entry_cases h₀ hx hpc hi with ⟨-, he⟩ | ⟨-, he⟩ | ⟨k, hk, rfl, hc, he⟩ <;> rw [he] at ha
  · have hstay : ∀ b' j', IsSlot x.oldTable b' j' a → ¬ x.movesSlot hash m₀ b' j' :=
      fun b' j' hsl hmv => hne (hex.gone b' j' a hsl hmv trivial)
    have hslot := hex.kept b j a ha fun hmc => hstay b j ha hmc.1
    refine ⟨x.idx, hidx, j, a, hold ▸ ha, ?_, .inl ⟨rfl, hstay⟩⟩
    rw [hslot, ha.eq]
    rfl
  · have hslot := hex.copies rfl b j a ha
    rw [hslot, getD_eq_getElem?_getD] at hne
    cases hj : (x.movers hash m₀ b kAssociatedWays)[j]? with
    | none => simp [Progress.reached, Split.copies, hj] at hne
    | some l =>
      have hl := (Split.mem_movers.mp (mem_of_getElem? hj)).1
      have hsl : IsSlot x.oldTable b l (slotAddr x.oldTable b l) := ⟨ha.bucket_lt, hl, rfl⟩
      refine ⟨x.idx, hidx, l, _, hold ▸ hsl, ?_, .inr ⟨b, j, l, ha, hsl, hj⟩⟩
      rw [hslot, getD_eq_getElem?_getD]
      simp [Progress.reached, Split.copies, hj, Split.slot₀]
  · have hap := h₀.other_apart hx hk hc
    have hslot := hex.others a ((hx.fresh _ hk).not_inTable ha.bounds) fun _ _ hsl => hap.ne ha hsl
    refine ⟨_, hx.dir ▸ hk, j, a, hx.dir ▸ ha, hslot.symm, .inl ⟨rfl, fun b' j' hsl => ?_⟩⟩
    exact (hap.ne ha hsl).elim

theorem Alone.tidy (ht : Tidy hash K m₀) : Tidy hash K m := by
  have hex := h.exact hpc
  refine ⟨h.extendible h₀ hx hpc, fun c hc => ht.keys c (h.stores h₀ hx hpc hc), ?_, ?_⟩
  · intro i hi b j a c ha hc
    obtain ⟨k, hk, l, a₀, ha₀, hs, -⟩ := h.exists_source h₀ hx hpc hi ha hc.1
    rw [← hs]
    refine ht.placed k hk b l a₀ c ha₀ ⟨hs ▸ hc.1, ?_⟩
    rw [hs, ← hex.block]
    exact hc.2
  · rintro a a' c c' ⟨i, hi, b, j, ha⟩ ⟨i', hi', b', j', ha'⟩ hc hc' hkey
    obtain ⟨k, hk, l, a₀, ha₀, hs, hsrc⟩ := h.exists_source h₀ hx hpc hi ha hc.1
    obtain ⟨k', hk', l', a₀', ha₀', hs', hsrc'⟩ := h.exists_source h₀ hx hpc hi' ha' hc'.1
    have heq : a₀ = a₀' := by
      refine ht.unique a₀ a₀' c c' ⟨k, hk, b, l, ha₀⟩ ⟨k', hk', b', l', ha₀'⟩ ⟨hs ▸ hc.1, ?_⟩
        ⟨hs' ▸ hc'.1, ?_⟩ hkey
      · rw [hs, ← hex.block]
        exact hc.2
      · rw [hs', ← hex.block]
        exact hc'.2
    subst heq
    exact hsrc.inj hsrc'

end

variable {fuel : ℕ} {c c' : ModifyCall} {m' : Memory}

theorem Extendible.run_current {f : Memory × ModifyCall → Option (Memory × ModifyCall)}
    (h : Extendible hash m) (hf : ∀ m c, (∀ q, c.pc ≠ .cas q) → f (m, c) = modifyStep hash m c)
    (hpc : c.pc = .read0) (hd : m.dir.Past c.dirCache)
    (hle : c.dirCache.globalDepth ≤ m.dir.globalDepth) :
    ∃ k c₁, c₁.pc = .read0 ∧ (c₁.dirCache = c.dirCache ∨ c₁.dirCache = m.dir) ∧ c₁.key = c.key ∧
      c₁.value = c.value ∧ c₁.newSlot = c.newSlot ∧
      (c₁.entry hash).pointer = (m.dir.entry (hash c₁.key)).pointer ∧
      (∀ i, m.staleAt hash (c₁.entry hash) c₁.key i = false) ∧
      ∀ n, Machine.run f (n + k) (m, c) = Machine.run f n (m, c₁) := by
  rcases h.past_cases hd c.key with ⟨hp, hns⟩ | ⟨j, -, -, -, hst⟩
  · exact ⟨0, c, hpc, .inl rfl, rfl, rfl, rfl, hp, hns, fun _ => rfl⟩
  · have hidle : (m.dir.subtables (c.dirCache.index (hash c.key))).lock = 0 :=
      h.idle _ ((Nat.mod_lt _ (Nat.two_pow_pos _)).trans_le (Nat.pow_le_pow_right (by decide) hle))
    obtain ⟨c₁, hpc₁, hd₁, hk₁, hv₁, hn₁, hrun⟩ := run_refresh hf hpc h.unlocked hidle (hst 0)
    have he : c₁.entry hash = m.dir.entry (hash c₁.key) := by rw [ModifyCall.entry, hd₁]
    refine ⟨4, c₁, hpc₁, .inr hd₁, hk₁, hv₁, hn₁, congrArg _ he, fun i => ?_, hrun⟩
    rw [he]
    exact h.not_stale c₁.key i

section
variable (hK : PrefixFree K) (h : Tidy hash K m)
include hK h

theorem Tidy.sole_of_found {key : Bytes} {q : ℕ} (hkey : K key)
    (hf : findKey m.block (hash key) key (m.candidates hash key) = some q) :
    q < 28 ∧ ∀ y c, m.Cell y → m.Holds y c → c.key = key → y = m.place hash key q := by
  refine ⟨mem_positions.mp (mem_of_find?_eq_some hf), fun y c hy hc hk => ?_⟩
  have ha := cell_posAddr hash m key q
  have hm := List.find?_some hf
  obtain ⟨c', hc', hck⟩ := h.holds_of_matches hK hkey ha hm
  exact h.unique y _ c c' hy ha hc hc' (hk.trans hck.symm)

theorem Tidy.modifyRun (hkey : K c.key) (hpc : c.pc = .read0) (hd : m.dir.Past c.dirCache)
    (hle : c.dirCache.globalDepth ≤ m.dir.globalDepth)
    (hs : c.newSlot ≠ .null → c.newSlot.fp = getFingerprint (hash c.key).h0 ∧ ∃ v, m.block
      c.newSlot.pointer = some ⟨c.key, v⟩)
    (hrun : Table.modifyRun hash fuel m c = (m', c')) (hend : c'.pc = .ok ∨ c'.pc = .enoent) :
    Tidy hash K m' ∧ m'.dir = m.dir ∧ m'.block = m.block ∧
      (c'.dirCache = c.dirCache ∨ c'.dirCache = m.dir) := by
  obtain ⟨k, c₁, hpc₁, hd₁, hk₁, -, hn₁, hp₁, hns₁, hcur⟩ :=
    h.extendible.run_current (f := fun s => modifyStep hash s.1 s.2) (fun _ _ _ => rfl) hpc hd hle
  have heq : Table.modifyRun hash (fuel + 3) m c₁ = (m', c') := by
    have hadd := Machine.run_add_of_halted (f := fun s => modifyStep hash s.1 s.2) hrun
      (by rcases hend with he | he <;> simp [modifyStep, he]) (3 + k)
    rwa [← add_assoc, hcur] at hadd
  obtain ⟨c'', hd', ⟨-, -, hr⟩ | ⟨q, hf, -, hr⟩⟩ := modifyRun_alone hpc₁ hp₁ hns₁ fuel <;>
    obtain ⟨rfl, rfl⟩ := Prod.mk.inj (hr.symm.trans heq)
  · exact ⟨h, rfl, rfl, by rw [hd']; exact hd₁⟩
  · rw [hk₁] at hf
    rw [hk₁, hn₁]
    obtain ⟨hq, hsole⟩ := h.sole_of_found hK hkey hf
    exact ⟨h.put hK hkey hq hs hsole, rfl, rfl, by rw [hd']; exact hd₁⟩

theorem Tidy.rmwRun {transform : Bytes → Bytes} {pointer : ℕ} (hkey : K c.key) (hpc : c.pc = .read0)
    (hv : c.value = none) (hd : m.dir.Past c.dirCache)
    (hle : c.dirCache.globalDepth ≤ m.dir.globalDepth) (hfresh : m.block pointer = none)
    (hrun : Table.rmwRun hash transform pointer fuel m c = (m', c'))
    (hend : c'.pc = .ok ∨ c'.pc = .enoent) :
    Tidy hash K m' ∧ m'.dir = m.dir ∧ (∀ p b, m.block p = some b → m'.block p = some b) ∧
      (c'.dirCache = c.dirCache ∨ c'.dirCache = m.dir) := by
  obtain ⟨k, c₁, hpc₁, hd₁, hk₁, hv₁, -, hp₁, hns₁, hcur⟩ :=
    h.extendible.run_current (f := fun s => rmwStep hash transform pointer s.1 s.2)
      (rmwStep_eq_modifyStep transform pointer) hpc hd hle
  have heq : Table.rmwRun hash transform pointer (fuel + 4) m c₁ = (m', c') := by
    have hadd := Machine.run_add_of_halted
      (f := fun s => rmwStep hash transform pointer s.1 s.2) hrun
      (by rcases hend with he | he <;> simp [rmwStep, modifyStep, he]) (4 + k)
    rwa [← add_assoc, hcur] at hadd
  obtain ⟨c'', hd', ⟨-, -, hr⟩ | ⟨q, value, hf, -, -, hr⟩⟩ :=
    rmwRun_alone transform pointer hpc₁ (hv₁.trans hv) hp₁ hns₁ fuel <;>
    obtain ⟨rfl, rfl⟩ := Prod.mk.inj (hr.symm.trans heq)
  · exact ⟨h, rfl, fun _ _ hb => hb, by rw [hd']; exact hd₁⟩
  · rw [hk₁] at hf ⊢
    have hkeep : ∀ p b, m.block p = some b →
        (m.writeBlock c.key value pointer).block p = some b := fun p b => writeBlock_of_some hfresh
    obtain ⟨hq, hsole⟩ := h.sole_of_found hK hkey hf
    refine ⟨?_, rfl, hkeep, by rw [hd']; exact hd₁⟩
    exact (h.writeBlock hfresh).put hK hkey hq (fun _ => ⟨rfl, value, Function.update_self ..⟩)
      fun y c hy hc => hsole y c hy (h.holds_of_writeBlock hfresh hy hc)

theorem Tidy.insertRun {c c' : InsertCall} (hkey : K c.key) (hpc : c.pc = .find0)
    (hfp : c.newSlot.fp = getFingerprint (hash c.key).h0)
    (hb : ∃ v, m.block c.newSlot.pointer = some ⟨c.key, v⟩)
    (habs : ∀ b, m.Stores b → b.key ≠ c.key) (he : c.entry hash = m.dir.entry (hash c.key))
    (hrun : Table.insertRun hash fuel m c = (m', c')) (hend : c'.pc = .returned ∨ c'.pc = .full) :
    c'.dirCache = c.dirCache ∧ c'.key = c.key ∧ c'.newSlot = c.newSlot ∧
      (c'.pc = .full ∧ c'.slotAddr = c.slotAddr ∧ m' = m ∨
        c'.pc = .returned ∧ Tidy hash K m' ∧ m'.dir = m.dir ∧ m'.block = m.block) := by
  have heq : Table.insertRun hash (fuel + 5) m c = (m', c') :=
    Machine.run_add_of_halted (f := fun s => insertStep hash s.1 s.2) hrun
      (by rcases hend with he | he <;> simp [insertStep, he]) 5
  obtain ⟨c'', hd', hk', hn', ⟨hfull, hsa, hr⟩ | ⟨q, hq, hret, -, hr⟩⟩ :=
    insertRun_alone hpc hfp (h.extendible.not_stale c.key) he (h.absent hK hkey habs) fuel <;>
    obtain ⟨rfl, rfl⟩ := Prod.mk.inj (hr.symm.trans heq) <;> refine ⟨hd', hk', hn', ?_⟩
  · exact .inl ⟨hfull, hsa, rfl⟩
  · exact .inr ⟨hret, h.put hK hkey hq (fun _ => ⟨hfp, hb⟩) fun y b hy hc hk =>
      absurd hk (habs b (hy.stores hc)), rfl, rfl⟩

end

end Fusa.Table

import Fusa.Table.Alone
import Fusa.Table.Slots

/-! A table at rest as a map, and what the calls make of it. -/
namespace Fusa.Table
open Function Option

/-- The slots in use hold the entries of the map, each once. -/
structure Maps (hash : Bytes → Hashes) (K : Bytes → Prop) (m : Memory)
    (map : Bytes → Option Bytes) : Prop where
  wellFormed : WellFormed hash m
  stored : ∀ a b, m.Holds a b → K b.key ∧ 0 ∉ b.value
  represents : CellMap.Represents Block.key Block.value m.Holds map

variable {hash : Bytes → Hashes} {K : Bytes → Prop} {m : Memory} {map : Bytes → Option Bytes}
  {key value : Bytes} {pointer a q : ℕ} {b : Block}

section
variable (h : Maps hash K m map) (hf : m.block pointer = none)
include h hf

theorem Maps.block_writeBlock (ha : m.slot a ≠ .null) :
    (m.writeBlock key value pointer).block (m.slot a).pointer = m.block (m.slot a).pointer := by
  obtain ⟨b, hb, -⟩ := h.wellFormed.stored a ha
  rw [writeBlock_of_some hf hb, hb]

theorem Maps.holds_writeBlock : (m.writeBlock key value pointer).Holds a b ↔ m.Holds a b := by
  refine and_congr_right fun ha => ?_
  rw [← h.block_writeBlock hf ha]
  rfl

theorem Maps.writeBlock : Maps hash K (m.writeBlock key value pointer) map := by
  refine ⟨⟨h.wellFormed.unlocked, h.wellFormed.header, fun a ha => ?_⟩,
    fun a b hb => h.stored a b ((h.holds_writeBlock hf).mp hb),
    h.represents.congr fun a b => h.holds_writeBlock hf⟩
  obtain ⟨b, hb, hfit⟩ := h.wellFormed.stored a ha
  exact ⟨b, (h.block_writeBlock hf ha).trans hb, hfit⟩

end

theorem Maps.exists_position (h : Maps hash K m map) (hb : m.Holds a b) :
    ∃ q < 28, a = m.place hash b.key q ∧
      matchesKey m.block (hash b.key) b.key (m.slot a) = true := by
  obtain ⟨c, hc, hfp, q, hq, ha⟩ := h.wellFormed.stored a hb.1
  obtain rfl := hb.unique ⟨hb.1, hc⟩
  exact ⟨q, hq, ha, by simp [matchesKey, hb.1, hfp, hb.2, readBlock_self]⟩

def Memory.candidates (hash : Bytes → Hashes) (m : Memory) (key : Bytes) (q : ℕ) : Slot :=
  m.slot (posAddr (m.dir.entry (hash key)).pointer (hash key) q)

theorem Maps.findKey_eq_none (h : Maps hash K m map)
    (hf : findKey m.block (hash key) key (m.candidates hash key) = none) : map key = none := by
  cases hv : map key with
  | none => rfl
  | some v =>
    obtain ⟨a, b, hb, rfl, -⟩ := h.represents.exists_cell hv
    obtain ⟨q, hq, rfl, hm⟩ := h.exists_position hb
    exact absurd hm (List.find?_eq_none.mp hf q (mem_positions.mpr hq))

section
variable (hK : PrefixFree K) (h : Maps hash K m map) (hkey : K key)
include hK h hkey

theorem Maps.holds_of_matches (hm : matchesKey m.block (hash key) key (m.slot a) = true) :
    ∃ b, m.Holds a b ∧ b.key = key := by
  obtain ⟨b, hb, hr⟩ := exists_readBlock hm
  exact ⟨b, hb, hK.key_eq hkey (h.stored a b hb).1 hr⟩

theorem Maps.absent (hn : map key = none) : Absent hash m key := by
  intro q _
  by_contra hm
  obtain ⟨b, hb, rfl⟩ := h.holds_of_matches hK hkey (Bool.eq_true_of_not_eq_false hm)
  simp [h.represents.map_key hb] at hn

theorem Maps.findKey_eq_some
    (hf : findKey m.block (hash key) key (m.candidates hash key) = some q) :
    ∃ b, m.Holds (m.place hash key q) b ∧ b.key = key := by
  have hm := List.find?_some hf
  exact h.holds_of_matches hK hkey hm

theorem Maps.searchAt_eq : searchAt hash m (m.dir.entry (hash key)).pointer key = map key := by
  change (findKey m.block (hash key) key (m.candidates hash key)).bind _ = _
  cases hf : findKey m.block (hash key) key (m.candidates hash key) with
  | none => exact (h.findKey_eq_none hf).symm
  | some q =>
    obtain ⟨b, hb, rfl⟩ := h.findKey_eq_some hK hkey hf
    rw [h.represents.map_key hb, bind_some, hb.2, bind_some, readBlock_self,
      strncpy_of_nulFree (h.stored _ b hb).2]

end

section
variable (h : Maps hash K m map)
include h

theorem Maps.put (hkey : K key) (hv : 0 ∉ value) (hc : Candidate hash m.dir key a)
    (hb : m.block pointer = some ⟨key, value⟩) (hp : pointer ≠ 0)
    (hold : ∀ c, m.Holds a c → c.key = key) (hother : ∀ x c, m.Holds x c → c.key = key → x = a) :
    Maps hash K (m.setSlot a (blockSlot hash key value pointer)) (update map key (some value)) := by
  have hne : blockSlot hash key value pointer ≠ .null := fun he => hp (congrArg Slot.pointer he)
  refine ⟨h.wellFormed.setSlot fun _ => ⟨_, hb, rfl, hc⟩, fun x c hx => ?_,
    h.represents.put a ⟨key, value⟩ fun x c => ?_⟩
  · rcases holds_update.mp hx with ⟨-, -, hx⟩ | ⟨-, hx⟩
    · obtain rfl := some.inj (hb.symm.trans hx)
      exact ⟨hkey, hv⟩
    · exact h.stored x c hx
  · rw [Memory.setSlot, holds_update]
    refine or_congr (and_congr_right fun _ => ?_) (and_comm.trans (and_congr_right fun hx => ?_))
    · constructor
      · rintro ⟨-, hx⟩
        exact some.inj (hx.symm.trans hb)
      · rintro rfl
        exact ⟨hne, hb⟩
    · constructor
      · intro hxa hk
        exact hxa (hother x c hx hk)
      · rintro hk rfl
        exact hk (hold c hx)

theorem Maps.insert (hkey : K key) (hv : 0 ∉ value) (hn : map key = none)
    (hc : Candidate hash m.dir key a) (hempty : m.slot a = .null)
    (hb : m.block pointer = some ⟨key, value⟩) (hp : pointer ≠ 0) :
    Maps hash K (m.setSlot a (blockSlot hash key value pointer)) (update map key (some value)) := by
  refine h.put hkey hv hc hb hp (fun c hx => absurd hempty hx.1) fun x c hx hk => ?_
  rw [← hk, h.represents.map_key hx] at hn
  cases hn

theorem Maps.update (hv : 0 ∉ value) (ha : m.Holds a b) (hb : m.block pointer = some ⟨b.key, value⟩)
    (hp : pointer ≠ 0) : Maps hash K (m.setSlot a (blockSlot hash b.key value pointer))
      (update map b.key (some value)) := by
  obtain ⟨q, hq, rfl, -⟩ := h.exists_position ha
  exact h.put (h.stored _ b ha).1 hv ⟨q, hq, rfl⟩ hb hp (fun c hx => congrArg _ (hx.unique ha))
    fun x c hx hk => h.represents.unique hx ha hk

theorem Maps.remove (ha : m.Holds a b) :
    Maps hash K (m.setSlot a .null) (Function.update map b.key none) := by
  refine ⟨h.wellFormed.setSlot fun hne => absurd rfl hne, fun x c hx => ?_,
    h.represents.drop b.key fun x c => ?_⟩
  · rcases holds_update.mp hx with ⟨-, hne, -⟩ | ⟨-, hx⟩
    · exact absurd rfl hne
    · exact h.stored x c hx
  · rw [Memory.setSlot, holds_update]
    simp only [ne_eq, not_true_eq_false, false_and, and_false, false_or]
    refine and_comm.trans (and_congr_right fun hx => not_congr ⟨?_, h.represents.unique hx ha⟩)
    rintro rfl
    exact congrArg _ (hx.unique ha)

end

end Fusa.Table

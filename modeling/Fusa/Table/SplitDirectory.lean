import Fusa.Lib.Modular
import Fusa.Table.Split

/-! The directory, and the copy of it that `resize` works on, while a subtable is split. -/
namespace Fusa.Table

open Nat

def ResizePc.sizing : ResizePc → Bool
  | .start | .size | .growCas _ | .growRead _ | .growWrite _ | .growPublish => true
  | _ => false

def ResizePc.early : ResizePc → Bool
  | .lockOld | .lockNew => true
  | pc => pc.sizing

namespace Split
variable (x : Split)

/-- An entry for the keys of the subtable before (`fixed = false`) or after the split. -/
def entry (locked fixed : Bool) (i : ℕ) : SubTableEntry where
  lock := if locked then 1 else 0
  localDepth := if fixed then x.depth + 1 else x.depth
  pointer := if fixed then x.tableOf i else x.oldTable

def locks : ResizePc → ℕ → Bool
  | .lockNew, i => i = x.oldSuffix
  | .unlockNew, i => i = x.newSuffix
  | .returned, _ => false
  | pc, i => !pc.early && (i = x.oldSuffix || i = x.newSuffix)

def fixed : ResizePc → ℕ → Bool
  | .readOld, _ | .writeNew, _ | .writeOldEntry, _ => false
  | .writeNewEntry, i => i = x.oldSuffix
  | .fixOld s, i => i = x.newSuffix || (i % 2 ^ (x.depth + 1) = x.oldSuffix && i < s)
  | .fixNew s, i => i % 2 ^ (x.depth + 1) = x.oldSuffix || i < s
  | pc, _ => !pc.early

/-- The same for the copy: `resize` sets its two entries there first. -/
def cached : ResizePc → ℕ → Bool
  | .readOld, i | .writeNew, i | .writeOldEntry, i | .writeNewEntry, i =>
    i = x.oldSuffix || i = x.newSuffix
  | pc, i => x.fixed pc i

/-- The entries below `2 ^ G` for the keys of the subtable. -/
def Entries (D : Directory) (G : ℕ) (L F : ℕ → Bool) : Prop :=
  ∀ i < 2 ^ G, i % 2 ^ x.depth = x.oldSuffix → D.subtables i = x.entry (L i) (F i) i

structure Listed (D : Directory) (G : ℕ) (L F : ℕ → Bool) : Prop where
  globalDepth : D.globalDepth = G
  unlocked : D.locked = false
  entries : x.Entries D G L F

/-- The directory `D` of the memory and the copy of `resize`, outside `resize_directory`. -/
structure Planned (D : Directory) (r : Resizer) : Prop where
  depth : r.depth = x.depth
  depth_le : x.depth ≤ r.globalDepth
  dir : x.Listed D r.globalDepth (x.locks r.pc) (x.fixed r.pc)
  cache : x.Listed r.dirCache r.globalDepth (x.locks r.pc) (x.cached r.pc)

/-- `resize_directory` has announced the depth `g + 1`, and the upper half is not written. -/
structure Growing (D : Directory) (r : Resizer) (g : ℕ) : Prop where
  depth : r.depth = x.depth
  depth_le : x.depth ≤ g
  globalDepth : D.globalDepth = g + 1
  locked : D.locked = true
  entries : x.Entries D g (fun _ => false) fun _ => false

def At (D : Directory) (r : Resizer) : ResizePc → Prop
  | .start => x.depth ≤ D.globalDepth ∧ x.idx < 2 ^ D.globalDepth ∧
      x.Listed D D.globalDepth (fun _ => false) fun _ => false
  | .growCas g => r.globalDepth = g ∧ x.Planned D r
  | .growRead g => r.casBuf = (g, false) ∧ x.Growing D r g
  | .growWrite g => x.Growing D r g ∧
      x.Listed r.dirCache (g + 1) (fun _ => false) fun _ => false
  | .growPublish => r.depth = x.depth ∧ x.depth ≤ r.dirCache.globalDepth ∧ D.locked = true ∧
      x.Entries D r.dirCache.globalDepth (fun _ => false) (fun _ => false) ∧
      x.Listed r.dirCache r.dirCache.globalDepth (fun _ => false) fun _ => false
  | .readOld => (r.newSlot = fun _ _ => .null) ∧ x.Planned D r
  | .fixOld s => s % 2 ^ (x.depth + 1) = x.oldSuffix ∧ x.oldSuffix < s ∧ x.Planned D r
  | .fixNew s => s % 2 ^ (x.depth + 1) = x.newSuffix ∧ x.newSuffix < s ∧ x.Planned D r
  | _ => x.Planned D r

/-- The `resize` of the subtable, whose next table will be or is the new one. -/
structure Control (alloc : ℕ → ℕ) (D : Directory) (r : Resizer) : Prop where
  idx : r.subtableIdx = x.idx
  overflow : r.resizeSuffix = none
  table : r.pc.early → alloc r.allocs = x.newTable
  finish : r.pc.early = false → r.exit = .finish ∧ r.fixDepth = x.depth
  deep : r.pc.sizing = false → x.newSuffix < 2 ^ r.globalDepth
  at_pc : x.At D r r.pc

end Split

variable {x : Split} {hash : Bytes → Hashes} {alloc : ℕ → ℕ} {D D' : Directory} {m m' : Memory}
  {r r' : Resizer} {G i : ℕ} {L L' F F' : ℕ → Bool}

/-! ### Suffixes -/

theorem Split.oldSuffix_lt : x.oldSuffix < 2 ^ x.depth := Nat.mod_lt _ (Nat.two_pow_pos _)

theorem Split.oldSuffix_mod : x.oldSuffix % 2 ^ (x.depth + 1) = x.oldSuffix := by
  have h := x.oldSuffix_lt
  exact mod_eq_of_lt (by rw [pow_succ]; omega)

theorem Split.newSuffix_mod : x.newSuffix % 2 ^ (x.depth + 1) = x.newSuffix := by
  have h := x.oldSuffix_lt
  refine mod_eq_of_lt ?_
  rw [newSuffix, pow_succ]
  omega

theorem Split.oldSuffix_ne_newSuffix : x.oldSuffix ≠ x.newSuffix := by
  have h := Nat.two_pow_pos x.depth
  rw [newSuffix]
  omega

variable {s : ℕ} {e : SubTableEntry}

theorem Split.mod_depth_of_mod {n : ℕ} (h : n % 2 ^ (x.depth + 1) = s) :
    n % 2 ^ x.depth = s % 2 ^ x.depth := by
  rw [← h, mod_mod_of_dvd _ (pow_dvd_pow 2 (le_succ _))]

theorem Split.newSuffix_class : x.newSuffix % 2 ^ x.depth = x.oldSuffix := by
  rw [newSuffix, add_mod_right, mod_eq_of_lt x.oldSuffix_lt]

theorem Split.oldSuffix_class : x.oldSuffix % 2 ^ x.depth = x.oldSuffix :=
  mod_eq_of_lt x.oldSuffix_lt

theorem Split.class_cases (h : i % 2 ^ x.depth = x.oldSuffix) :
    i % 2 ^ (x.depth + 1) = x.oldSuffix ∨ i % 2 ^ (x.depth + 1) = x.newSuffix :=
  Residue.mod_two_mul h

theorem Split.tableOf_of_old (h : i % 2 ^ (x.depth + 1) = x.oldSuffix) : x.tableOf i = x.oldTable :=
  if_neg fun hn => x.oldSuffix_ne_newSuffix (h.symm.trans hn)

theorem Split.tableOf_of_new (h : i % 2 ^ (x.depth + 1) = x.newSuffix) :
    x.tableOf i = x.newTable := if_pos h

theorem Split.tableOf_mod (hd : x.depth < G) (n : ℕ) : x.tableOf (n % 2 ^ G) = x.tableOf n := by
  rw [tableOf, tableOf, mod_mod_of_dvd _ (pow_dvd_pow 2 hd)]

/-! ### Entries -/

theorem Split.Entries.congr (h : x.Entries D G L F)
    (hLF : ∀ i < 2 ^ G, i % 2 ^ x.depth = x.oldSuffix → L' i = L i ∧ F' i = F i) :
    x.Entries D G L' F' := by
  intro i hi hc
  rw [h i hi hc, (hLF i hi hc).1, (hLF i hi hc).2]

theorem Split.Listed.congr (h : x.Listed D G L F)
    (hLF : ∀ i < 2 ^ G, i % 2 ^ x.depth = x.oldSuffix → L' i = L i ∧ F' i = F i) :
    x.Listed D G L' F' := ⟨h.globalDepth, h.unlocked, h.entries.congr hLF⟩

theorem Split.Listed.setEntry (h : x.Listed D G L F) (he : e = x.entry (L' i) (F' i) i)
    (hLF : ∀ k < 2 ^ G, k % 2 ^ x.depth = x.oldSuffix → k ≠ i → L' k = L k ∧ F' k = F k) :
    x.Listed (D.setEntry i e) G L' F' := by
  refine ⟨h.globalDepth, h.unlocked, fun k hk hc => ?_⟩
  by_cases hki : k = i
  · subst hki
    simpa [Directory.setEntry] using he
  · rw [(hLF k hk hc hki).1, (hLF k hk hc hki).2, ← h.entries k hk hc]
    simp [Directory.setEntry, hki]

theorem Split.Listed.entry_eq {key : Bytes} (h : x.Listed D D.globalDepth L F)
    (hd : x.depth ≤ D.globalDepth) (hk : x.Member hash key) : D.entry (hash key) =
      x.entry (L (D.index (hash key))) (F (D.index (hash key))) (D.index (hash key)) := by
  refine h.entries _ (Nat.mod_lt _ (Nat.two_pow_pos _)) ?_
  rwa [Directory.index, mod_mod_of_dvd _ (pow_dvd_pow 2 hd)]

theorem Split.Entries.grow (h : x.Entries D G (fun _ => false) fun _ => false)
    (hd : x.depth ≤ G) : x.Listed (D.grow G) (G + 1) (fun _ => false) fun _ => false := by
  refine ⟨rfl, rfl, fun i hi hc => ?_⟩
  simp only [Directory.grow]
  split
  · rename_i hup
    have hlow : i - 2 ^ G < 2 ^ G := by
      rw [pow_succ] at hi
      omega
    rw [h (i - 2 ^ G) hlow ?_]
    · rfl
    · obtain ⟨k, hk⟩ := pow_dvd_pow 2 hd
      rw [hk] at hup ⊢
      rwa [sub_mul_mod hup.1]
  · rename_i hup
    exact h i (by omega) hc

/-! ### Operations on one entry -/

section
variable (hm : m.dir.subtables s = e) (hc : r.dirCache.subtables s = e) (he : e.lock = 0)
include hm hc he

theorem Resizer.lock_eq :
    r.lock m s = (m.setEntry s { e with lock := 1 }, r.setCache s { e with lock := 1 }) := by
  rw [Resizer.lock, if_pos]
  · rw [hc]
  · rw [hm, hc, ← he]

theorem Resizer.fix_eq {pointer : ℕ} (hd : e.localDepth = r.fixDepth) : r.fix m s pointer =
      (m.setEntry s ⟨0, r.fixDepth + 1, pointer⟩, r.setCache s ⟨0, r.fixDepth + 1, pointer⟩) := by
  simp only [fix, hm, hc, he, hd]
  simp

end

theorem Resizer.branch_eq (table : ℕ) (ho : r.oldEntry.localDepth = r.depth)
    (hn : r.newEntry.localDepth = r.depth) (hp : r.oldEntry.pointer = r.newEntry.pointer) :
    r.branch table =
      { r with
        dirCache := (r.dirCache.setEntry r.newSuffix ⟨r.newEntry.lock, r.depth + 1, table⟩).setEntry
          r.oldSuffix ⟨r.oldEntry.lock, r.depth + 1, r.oldEntry.pointer⟩
        exit := .finish, fixDepth := r.depth, allocs := r.allocs + 1
        newSlot := fun _ _ => .null, pc := .readOld } := by
  have hne : r.oldSuffix ≠ r.newSuffix := by
    have := Nat.two_pow_pos r.depth
    rw [newSuffix]
    omega
  rw [branch, if_neg (by simp [ho, hn]), if_neg (by simp [hp])]
  simp only [setCache, oldEntry, newEntry, oldSuffix, newSuffix, Directory.setEntry] at hne ⊢
  rw [Function.update_of_ne hne]

end Fusa.Table

import Fusa.Common
import Fusa.Lib.Probing

/-! Recorders of queue pairs: `map_qpn_to_idx` of the driver and its mirror in the client. -/
namespace Fusa.Driver.Recorder
open List Function Nat

/-- A loop over `records[idx i].qpn` up to the first `v`: where it is left, and what it reads. -/
def scan (mem : ℕ → ℕ) (idx : ℕ → ℕ) (v : ℕ) : ℕ → ℕ → Option ℕ × List ℕ
  | 0, _ => (none, [])
  | n + 1, i =>
    if mem (idx i) = v then (some i, [idx i])
    else ((scan mem idx v n (i + 1)).1, idx i :: (scan mem idx v n (i + 1)).2)

/-- `map_qpn_to_idx`: the index, and the records read; without a hit it runs off its end. -/
def mapQpnToIdx (mem : ℕ → ℕ) (qpn insert : ℕ) : Option ℕ × List ℕ :=
  let firstIdx := qpn % maxRecorderNum
  if insert = 1 then
    if mem firstIdx = 0 then (some firstIdx, [firstIdx])
    else
      let r := scan mem (· % maxRecorderNum) 0 (maxRecorderNum - 1) (firstIdx + 1)
      (r.1.map (· % maxRecorderNum), firstIdx :: r.2)
  else
    -- here the loop does not reduce `i` modulo the number of recorders
    let r := scan mem id qpn maxRecorderNum firstIdx
    (r.1, firstIdx :: r.2)

variable (records : ℕ → ℕ) (qpn : ℕ)

/-- The part of `mlx5_create_qp` that gives the queue pair a recorder. -/
def mlx5CreateQp : Option (ℕ × (ℕ → ℕ)) :=
  (mapQpnToIdx records qpn 1).1.map fun idx => (idx, update records idx qpn)

/-- `BasicClient::map_qpn_to_idx`, which also writes its table. -/
def clientMapQpnToIdx (qpnTable : ℕ → ℕ) (qpn : ℕ) : Option (ℕ × (ℕ → ℕ)) :=
  let firstIdx := qpn % maxRecorderNum
  if qpnTable firstIdx = 0 then some (firstIdx, update qpnTable firstIdx qpn)
  else
    let r := scan qpnTable (· % maxRecorderNum) 0 (maxRecorderNum - 1) (firstIdx + 1)
    r.1.map fun i => (i % maxRecorderNum, update qpnTable (i % maxRecorderNum) qpn)

def fill (create : (ℕ → ℕ) → ℕ → Option (ℕ × (ℕ → ℕ))) :
    (ℕ → ℕ) → List ℕ → Option (List ℕ × (ℕ → ℕ))
  | T, [] => some ([], T)
  | T, qpn :: qpns => do
    let (i, T') ← create T qpn
    let (is, T'') ← fill create T' qpns
    return (i :: is, T'')

/-- What `records[i].qpn` reads: past the last recorder, other fields of `sh_local_region`. -/
def view (records outside : ℕ → ℕ) (i : ℕ) : ℕ :=
  if i < maxRecorderNum then records i else outside i

/-- The driver's insertions, the client's mirror and the driver's lookups agree. -/
def Consistent (outside : ℕ → ℕ) (qpns : List ℕ) : Prop :=
  ∃ is records, fill mlx5CreateQp (fun _ => 0) qpns = some (is, records) ∧
    is.Nodup ∧ (∀ i ∈ is, i < maxRecorderNum) ∧
    (fill clientMapQpnToIdx (fun _ => 0) qpns).map Prod.fst = some is ∧
    ∀ p ∈ qpns.zip is, (mapQpnToIdx (view records outside) p.1 0).1 = some p.2 ∧
      ∀ i ∈ (mapQpnToIdx (view records outside) p.1 0).2, i < maxRecorderNum

def home : ℕ := qpn % maxRecorderNum

theorem home_lt : home qpn < maxRecorderNum := mod_lt _ (by decide)

theorem scan_fst (mem idx : ℕ → ℕ) (v n i : ℕ) :
    (scan mem idx v n i).1 = (List.range' i n).find? fun i => mem (idx i) = v := by
  induction n generalizing i with
  | zero => rfl
  | succ n ih =>
    rw [List.range'_succ, List.find?_cons]
    unfold scan
    by_cases h : mem (idx i) = v
    · simp [h]
    · simp [h, ih]

section
variable {mem : ℕ → ℕ} {v n i m : ℕ}

theorem scan_id_hit (him : i ≤ m) (hmn : m < i + n) (hm : mem m = v)
    (hbefore : ∀ j, i ≤ j → j < m → mem j ≠ v) :
    (scan mem id v n i).1 = some m ∧ ∀ j ∈ (scan mem id v n i).2, j ≤ m := by
  induction n generalizing i with
  | zero => omega
  | succ n ih =>
    unfold scan
    obtain rfl | hlt := him.eq_or_lt
    · simp [hm]
    · obtain ⟨h₁, h₂⟩ := ih (i := i + 1) (by omega) (by omega) fun j hj => hbefore j (by omega)
      have hi : mem i ≠ v := hbefore i (by omega) hlt
      simp only [id_eq, hi, if_false, forall_mem_cons]
      exact ⟨h₁, him, h₂⟩

theorem scan_id_miss (him : i ≤ m) (hmn : m < i + n)
    (hbefore : ∀ j, i ≤ j → j < m → mem j ≠ v) : m ∈ (scan mem id v n i).2 := by
  induction n generalizing i with
  | zero => omega
  | succ n ih =>
    unfold scan
    obtain rfl | hlt := him.eq_or_lt
    · by_cases hm : mem i = v
      · simp [hm]
      · simp [hm]
    · have hi : mem i ≠ v := hbefore i (by omega) hlt
      simp only [id_eq, hi, if_false]
      exact mem_cons_of_mem _ (ih (by omega) (by omega) fun j hj => hbefore j (by omega))

end

theorem probe_eq : Probing.probe maxRecorderNum records (home qpn) =
      if records (home qpn) = 0 then some (home qpn)
      else (scan records (· % maxRecorderNum) 0 (maxRecorderNum - 1) (home qpn + 1)).1.map
        (· % maxRecorderNum) := by
  have hm : home qpn % maxRecorderNum = home qpn := mod_eq_of_lt (home_lt qpn)
  have hr : List.range' (home qpn) maxRecorderNum =
      home qpn :: List.range' (home qpn + 1) (maxRecorderNum - 1) := rfl
  rw [scan_fst, Probing.probe, hr, List.find?_cons]
  by_cases h : records (home qpn) = 0 <;> simp [hm, h]

theorem mlx5CreateQp_eq_place :
    mlx5CreateQp records qpn = Probing.place maxRecorderNum home records qpn := by
  rw [Probing.place, probe_eq]
  unfold mlx5CreateQp mapQpnToIdx home
  by_cases h : records (qpn % maxRecorderNum) = 0 <;> simp [h]

theorem clientMapQpnToIdx_eq_place (qpnTable : ℕ → ℕ) (qpn : ℕ) :
    clientMapQpnToIdx qpnTable qpn = Probing.place maxRecorderNum home qpnTable qpn := by
  rw [Probing.place, probe_eq]
  unfold clientMapQpnToIdx home
  by_cases h : qpnTable (qpn % maxRecorderNum) = 0
  · simp [h]
  · simp [h, comp_def]

theorem fill_eq_placeAll {create : (ℕ → ℕ) → ℕ → Option (ℕ × (ℕ → ℕ))}
    (h : ∀ T qpn, create T qpn = Probing.place maxRecorderNum home T qpn) (T : ℕ → ℕ)
    (qpns : List ℕ) : fill create T qpns = Probing.placeAll maxRecorderNum home T qpns := by
  induction qpns generalizing T with
  | nil => rfl
  | cons qpn qpns ih => simp only [fill, Probing.placeAll, h, ih]

theorem packed_zero : Probing.Packed maxRecorderNum home fun _ => 0 := by
  constructor <;> simp

theorem load_zero (k : ℕ) : Probing.load maxRecorderNum home (fun _ => 0) k = 0 := by
  simp [Probing.load]

section
variable {qpns : List ℕ} {is : List ℕ} {records : ℕ → ℕ}

theorem zip_unique {q i j : ℕ} (hnd : qpns.Nodup) (hi : (q, i) ∈ qpns.zip is)
    (hj : (q, j) ∈ qpns.zip is) : i = j := by
  obtain ⟨a, ha, hea⟩ := mem_iff_getElem.mp hi
  obtain ⟨b, hb, heb⟩ := mem_iff_getElem.mp hj
  simp only [getElem_zip, Prod.mk.injEq] at hea heb
  have hab : a = b := (List.Nodup.getElem_inj_iff hnd).mp (hea.1.trans heb.1.symm)
  subst hab
  exact hea.2.symm.trans heb.2

variable (hnd : qpns.Nodup) (hne : ∀ q ∈ qpns, q ≠ 0)
  (hp : Probing.placeAll maxRecorderNum home (fun _ => 0) qpns = some (is, records))
include hnd hne hp

theorem record_unique {q i j : ℕ} (hi : (q, i) ∈ qpns.zip is) (hj : records j = q) : j = i := by
  obtain ⟨-, -, hkeep, hother⟩ := Probing.placeAll_spec home_lt hne hp
  have hq : q ≠ 0 := hne q (of_mem_zip hi).1
  have hmem : j ∈ is := by
    by_contra hnot
    exact hq (hj ▸ hother j hnot)
  obtain ⟨a, ha, rfl⟩ := mem_iff_getElem.mp hmem
  have hlen := Probing.placeAll_length hp
  have hz : (qpns[a], is[a]) ∈ qpns.zip is :=
    mem_iff_getElem.mpr ⟨a, by rw [length_zip]; omega, by simp⟩
  have hqa : qpns[a] = q := (hkeep _ hz).symm.trans hj
  exact zip_unique hnd (hqa ▸ hz) hi

theorem lookup_iff (outside : ℕ → ℕ) {p : ℕ × ℕ} (hmem : p ∈ qpns.zip is) :
    ((mapQpnToIdx (view records outside) p.1 0).1 = some p.2 ∧
      ∀ i ∈ (mapQpnToIdx (view records outside) p.1 0).2, i < maxRecorderNum) ↔ home p.1 ≤ p.2 := by
  obtain ⟨q, i⟩ := p
  obtain ⟨-, hfree, hkeep, -⟩ := Probing.placeAll_spec home_lt hne hp
  have hi : i < maxRecorderNum := (hfree i (of_mem_zip hmem).2).1
  have hhome := home_lt q
  have hother : ∀ j < maxRecorderNum, j ≠ i → view records outside j ≠ q := by
    intro j hj hji hv
    exact hji (record_unique hnd hne hp hmem (by simpa [view, hj] using hv))
  constructor
  · rintro ⟨-, hreads⟩
    by_contra hlt
    have hlt : i < home q := Nat.lt_of_not_le hlt
    have hmiss : maxRecorderNum ∈
        (scan (view records outside) id q maxRecorderNum (home q)).2 := by
      refine scan_id_miss hhome.le (by omega) fun j hj hjn => hother j hjn ?_
      omega
    exact absurd (hreads _ (mem_cons_of_mem _ hmiss)) (lt_irrefl _)
  · intro hle
    have hhit : view records outside i = q := by simpa [view, hi] using hkeep _ hmem
    obtain ⟨h₁, h₂⟩ := scan_id_hit (n := maxRecorderNum) hle (by omega) hhit fun j hj hji =>
      hother j (by omega) (by omega)
    refine ⟨h₁, fun j hj => ?_⟩
    obtain rfl | hj := mem_cons.mp hj
    · exact hhome
    · have := h₂ j hj
      omega

end

/-- They agree exactly when for all `k` at most `32 - k` numbers are `k` or more modulo 32. -/
theorem consistent_iff (outside : ℕ → ℕ) (qpns : List ℕ) (hlen : qpns.length ≤ maxRecorderNum)
    (hnd : qpns.Nodup) (hne : ∀ q ∈ qpns, q ≠ 0) : Consistent outside qpns ↔
      ∀ k < maxRecorderNum, qpns.countP (k ≤ · % maxRecorderNum) ≤ maxRecorderNum - k := by
  have hsome := Probing.placeAll_isSome (T := fun _ => 0) home_lt hne (by simpa [load_zero])
  obtain ⟨⟨is, records⟩, hp⟩ := Option.isSome_iff_exists.mp hsome
  obtain ⟨hnodup, hfree, -⟩ := Probing.placeAll_spec home_lt hne hp
  have hcount := Probing.placeAll_unwrapped_iff home_lt hne packed_zero hp
  simp only [load_zero, zero_add] at hcount
  rw [show (∀ k < maxRecorderNum, qpns.countP (k ≤ · % maxRecorderNum) ≤ maxRecorderNum - k) ↔
    ∀ p ∈ qpns.zip is, home p.1 ≤ p.2 from hcount.symm]
  unfold Consistent
  rw [fill_eq_placeAll mlx5CreateQp_eq_place, fill_eq_placeAll clientMapQpnToIdx_eq_place, hp]
  constructor
  · rintro ⟨is', records', he, -, -, -, hlook⟩ p hmem
    cases he
    exact (lookup_iff hnd hne hp outside hmem).mp (hlook p hmem)
  · intro hle
    exact ⟨is, records, rfl, hnodup, fun i hi => (hfree i hi).1, rfl,
      fun p hmem => (lookup_iff hnd hne hp outside hmem).mpr (hle p hmem)⟩

theorem consistent_collision : Consistent (fun _ => 0) [30, 62, 5] :=
  (consistent_iff _ _ (by decide) (by decide) (by decide)).mpr (by decide)

/-- Both start at the last recorder: the second gets recorder 0, and looks up `records[32]`. -/
theorem not_consistent_lastRecorder : ¬ Consistent (fun _ => 0) [31, 63] := by
  rintro ⟨is, records, hfill, -, -, -, hlook⟩
  rw [fill_eq_placeAll mlx5CreateQp_eq_place] at hfill
  have his : is = [31, 0] := by
    have he : (Probing.placeAll maxRecorderNum home (fun _ => 0) [31, 63]).map Prod.fst =
        some [31, 0] := by decide
    simpa [hfill] using he
  subst his
  have hle := (lookup_iff (by decide) (by decide) hfill _ (p := (63, 0)) (by decide)).mp
    (hlook (63, 0) (by decide))
  exact absurd hle (by decide)

end Fusa.Driver.Recorder

import Fusa.Table.Survival

/-! Concurrent inserts of different keys. A call takes a slot for its own by the fingerprint alone,
and `read_block` accepts a stored key that begins the call's key. -/
namespace Fusa.Table.Inserts
open Transition Function Option

variable (hash : Bytes → Hashes)

def target (c : InsertCall) : Option (ℕ × Slot) :=
  match c.pc with
  | .delete (q :: _) => some (c.addr hash q, c.buf.slot q)
  | .moveClear => some (c.slotAddr, c.buf.slot c.slotPos)
  | _ => none

/-- No call clears a slot of another key, and every key that was inserted is found. -/
structure Safe (s : State) : Prop where
  clears : ∀ c a e, target hash (s.calls c) = some (a, e) → s.mem.slot a = e → e ≠ .null →
    s.mem.HoldsKey a (s.calls c).key
  found : ∀ c, (s.calls c).pc = .returned →
    (search hash s.mem s.mem.dir (s.calls c).key).isSome

/-- A key that is inserted or was there before. -/
def Known (m₀ : Memory) (K : Bytes → Prop) (k : Bytes) : Prop := K k ∨ ∃ a, m₀.HoldsKey a k

/-- No key of `K` shares a fingerprint and a bucket with another known one. -/
def ConflictFree (m₀ : Memory) (K : Bytes → Prop) : Prop :=
  ∀ k k' a, K k → Known m₀ K k' → getFingerprint (hash k').h0 = getFingerprint (hash k).h0 →
    Candidate hash m₀.dir k' a → Candidate hash m₀.dir k a → k' = k

structure Within (m₀ : Memory) (K : Bytes → Prop) (s : State) : Prop where
  stored : ∀ a b, s.mem.Holds a b → Known m₀ K b.key
  call : ∀ c, (s.calls c).pc ≠ .idle → K (s.calls c).key

variable {hash} {K : Bytes → Prop} {m₀ : Memory} {s t : State}

theorem Within.start (h : (system hash m₀).start s) : Within m₀ K s :=
  ⟨fun a b hb => .inr ⟨a, b, h.1 ▸ hb, rfl⟩, fun c hc => absurd (h.2 c).1 hc⟩

theorem Within.step {a : Action} (h : Within m₀ K s) (hinv : Inv hash m₀ s) (hc : KeysIn K s a)
    (hn : (system hash m₀).next s a = some t) : Within m₀ K t := by
  cases next_cases hn with
  | @call c key value pointer hpc hp hb =>
    constructor
    · intro x b hx
      obtain ⟨b', hb', hk⟩ := (holdsKey_writeBlock hinv.wellFormed hb).mp ⟨b, hx, rfl⟩
      exact hk ▸ h.stored x b' hb'
    · exact (forall_update_iff s.calls fun _ c => c.pc ≠ .idle → K c.key).mpr
        ⟨fun _ => hc, fun d _ => h.call d⟩
  | @step c m' c' hs =>
    have hidle := step_pc_ne_idle hs
    constructor
    · intro x b hx
      rcases (hinv.call c).holds_step hs hx with hx | rfl
      · exact h.stored x b hx
      · exact .inl (h.call c hidle)
    · refine (forall_update_iff s.calls fun _ c => c.pc ≠ .idle → K c.key).mpr
        ⟨fun _ => ?_, fun d _ => h.call d⟩
      rw [(step_args hs).1]
      exact h.call c hidle

theorem trust_of_conflictFree (hK : ConflictFree hash m₀ K) (h : Within m₀ K s)
    (hinv : Inv hash m₀ s) : Trust hash s := by
  intro c q hc hq a ha hne hfp _
  obtain ⟨b, hb, hbfp, hcand⟩ := hinv.wellFormed.stored a hne
  have hidle := ne_idle_of_claimed hc
  rw [(hinv.call c).newSlot_fp hidle, hbfp] at hfp
  refine ⟨b, ⟨hne, hb⟩, hK _ _ a (h.call c hidle) (h.stored a b ⟨hne, hb⟩) hfp ?_ ?_⟩
  · rwa [← hinv.dir]
  · exact ⟨q, hq, by rw [ha, hinv.dir]⟩

theorem safe_of_conflictFree (hw : WellFormed hash m₀) (hK : ConflictFree hash m₀ K)
    (h : (system hash m₀).RunWith (KeysIn K) s) : Safe hash s := by
  have hall : Inv hash m₀ s ∧ Within m₀ K s ∧ Survives hash s := by
    refine h.invariant (P := fun s => Inv hash m₀ s ∧ Within m₀ K s ∧ Survives hash s)
      (fun s hs => ⟨Inv.start hw hs, .start hs, .start hs⟩) ?_
    rintro s a t ⟨hinv, hin, hsv⟩ hc hn
    exact ⟨hinv.step hn, hin.step hinv hc hn, hsv.next hinv (trust_of_conflictFree hK hin hinv) hn⟩
  obtain ⟨hinv, hin, hsv⟩ := hall
  have ht := trust_of_conflictFree hK hin hinv
  constructor
  · intro c a e htar hm hne
    unfold target at htar
    split at htar
    · rename_i q l hpc
      cases htar
      exact ht.holdsKey_delete hinv hpc hm
    · rename_i hpc
      have hat := (hinv.call c).atPc
      simp [AtPc, hpc] at hat
    · cases htar
  · intro c hpc
    obtain ⟨a, ha⟩ := hsv _ (.inr ⟨c, by simp [hpc, InsertPc.claimed], rfl⟩)
    exact hinv.wellFormed.search_isSome ha.holds

/-! ### Two keys, one of which begins the other -/

def idleCall : InsertCall where
  pc := .idle
  key := []
  value := []
  newSlot := .null
  dirCache := setup.dir
  base := 0
  buf := ⟨fun _ => ⟨0, 0⟩, fun _ => .null⟩
  slotAddr := 0
  slotBucket := 0
  slotPos := 0

def idleState : State := ⟨setup, fun _ => idleCall⟩

/-- `l` and `l16809430` have one fingerprint and one first bucket. -/
def shortKey : Bytes := [108]

def longKey : Bytes := [108, 49, 54, 56, 48, 57, 52, 51, 48]

def insertSteps (c : ℕ) (key : Bytes) (pointer : ℕ) : List Action :=
  .call c key [] pointer :: List.replicate 5 (.step c)

/-- The inserts of `l` and `m` take their steps in turn. -/
theorem safe_twoKeys : ∃ s, (system hashFunction setup).Reachable s ∧ (s.calls 0).pc = .returned ∧
      (s.calls 1).pc = .returned ∧ (s.calls 0).key ≠ (s.calls 1).key ∧ Safe hashFunction s := by
  obtain ⟨s, -, h, h0, h1, hne⟩ := (system hashFunction setup).exists_runWith
    (KeysIn fun k => k = shortKey ∨ k = [109])
    (fun s => (s.calls 0).pc = .returned ∧ (s.calls 1).pc = .returned ∧
      (s.calls 0).key ≠ (s.calls 1).key) (s := idleState) ⟨rfl, fun _ => ⟨rfl, rfl⟩⟩
    (.call 0 shortKey [] 64 :: .call 1 [109] [] 128 ::
      (List.replicate 5 [.step 0, .step 1]).flatten)
    (by simp [KeysIn, System.AllSteps, List.replicate]) (by decide +kernel)
  refine ⟨s, h.reachable, h0, h1, hne,
    safe_of_conflictFree (wellFormed_setup _) ?_ h⟩
  have hfp : getFingerprint (hashFunction shortKey).h0 ≠
      getFingerprint (hashFunction [109]).h0 := by
    decide +kernel
  rintro k k' a (rfl | rfl) ((rfl | rfl) | ⟨x, b, hb, -⟩) heq - -
  · rfl
  · exact absurd heq.symm hfp
  · exact absurd rfl hb.1
  · exact absurd heq hfp
  · rfl
  · exact absurd rfl hb.1

/-- A second insert of `l16809430`, after `l`, is about to clear the slot of `l`. -/
theorem not_safe_longKey :
    ∃ s, (system hashFunction setup).Reachable s ∧ ¬ Safe hashFunction s := by
  have hrun : ((system hashFunction setup).exec idleState
      (insertSteps 0 longKey 64 ++ insertSteps 1 shortKey 128 ++ insertSteps 2 longKey 192)).bind
      (fun s => (target hashFunction (s.calls 2)).map fun p =>
        (p.2, s.mem.slot p.1, s.mem.block (s.mem.slot p.1).pointer, (s.calls 2).key)) =
      some (⟨114, 1, 128⟩, ⟨114, 1, 128⟩, some ⟨shortKey, []⟩, longKey) := by decide +kernel
  obtain ⟨s, hs, hp⟩ := bind_eq_some_iff.mp hrun
  obtain ⟨⟨a, e⟩, htar, heq⟩ := map_eq_some_iff.mp hp
  simp only [Prod.mk.injEq] at heq
  obtain ⟨he, hslot, hblock, hkey⟩ := heq
  refine ⟨s, System.Reachable.exec (.start ⟨rfl, fun _ => ⟨rfl, rfl⟩⟩) _ hs, fun h => ?_⟩
  have hne : e ≠ .null := by
    rw [he]
    decide
  obtain ⟨b, hb, hbk⟩ := h.clears 2 a e htar (hslot.trans he.symm) hne
  have hb' : b = ⟨shortKey, []⟩ := some.inj (hb.2.symm.trans hblock)
  rw [hb', hkey] at hbk
  exact absurd hbk (by decide)

end Fusa.Table.Inserts

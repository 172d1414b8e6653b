import Fusa.Lib.Transition

/-! The start-up barrier: `muliti_node_sync` of the clients against `start_server` and the first
phase of `server_func`. -/
namespace Fusa.Agent.Barrier
open Transition Function Option

inductive Request
  | faa
  | read
deriving DecidableEq, Repr

inductive ClientPc
  | start
  | syncing
  | left
deriving DecidableEq, Repr

/-- `posted` are requests not executed yet, `responses` values on their way to `buf`. -/
structure Client where
  pc : ClientPc
  buf : ℕ
  posted : List Request
  responses : List ℕ
  machinePhase : ℕ
deriving DecidableEq, Repr

inductive ServerPc
  | waiting
  | passed
  | running
deriving DecidableEq, Repr

/-- `word` is the first word of `server_layout`: the barrier, and `strategies.phase`. -/
structure State where
  word : ℕ
  server : ServerPc
  client : ℕ → Client

inductive ClientAction
  | enter
  | postRead
  | execute
  | deliver
  | leave
  | report

inductive Action
  | client (i : ℕ) (a : ClientAction)
  | passBarrier
  | initPhase
  | advancePhase

variable (N : ℕ)

/-- A client with the word it shares. Requests are executed, and their values returned, in order. -/
def Client.next (word : ℕ) (c : Client) : ClientAction → Option (ℕ × Client)
  | .enter =>
    if c.pc = .start then some (word, { c with pc := .syncing, posted := [.faa] }) else none
  | .postRead =>
    if c.pc = .syncing ∧ c.buf ≠ N then some (word, { c with posted := c.posted ++ [.read] })
    else none
  | .execute =>
    match c.posted with
    | [] => none
    | .faa :: posted => some (word + 1, { c with posted, responses := c.responses ++ [word] })
    | .read :: posted => some (word, { c with posted, responses := c.responses ++ [word] })
  | .deliver =>
    match c.responses with
    | [] => none
    | v :: responses => some (word, { c with buf := v, responses })
  | .leave => if c.pc = .syncing ∧ c.buf = N then some (word, { c with pc := .left }) else none
  | .report =>
    if c.pc = .left then some (word, { c with machinePhase := c.machinePhase + 1 }) else none

/-- The server starts the next phase when every client has reported in this one. -/
def next (s : State) : Action → Option State
  | .client i a =>
    if i < N then
      ((s.client i).next N s.word a).map fun (word, c) =>
        { s with word, client := Function.update s.client i c }
    else none
  | .passBarrier =>
    if s.server = .waiting ∧ s.word = N then some { s with server := .passed } else none
  | .initPhase =>
    if s.server = .passed then some { s with server := .running, word := 1 } else none
  | .advancePhase =>
    if s.server = .running ∧ ∀ i < N, (s.client i).machinePhase = s.word then
      some { s with word := s.word + 1 }
    else none

def system : System State Action where
  start s := s.word = 0 ∧ s.server = .waiting ∧ ∀ i, ∃ buf, s.client i = ⟨.start, buf, [], [], 0⟩
  next := next N

/-- The client has been handed `N`, or a read will still return it. -/
def CanObserve (s : State) (i : ℕ) : Prop :=
  s.word = N ∨ (s.client i).buf = N ∨ N ∈ (s.client i).responses

/-- Once the server is past the barrier, no client in `muliti_node_sync` is stranded. -/
def Safe (s : State) : Prop :=
  s.server ≠ .waiting → ∀ i < N, (s.client i).pc ≠ .left → CanObserve N s i

/-- A single client and the word: the client waits for the number of the first phase. -/
structure ClientInv (word : ℕ) (c : Client) : Prop where
  tail : .faa ∉ c.posted.tail
  start : c.pc = .start → c.posted = []
  reported : c.machinePhase ≠ 0 → c.pc = .left
  arrived : word ≠ 0 → .faa ∉ c.posted ∧ c.pc ≠ .start ∧ (c.pc ≠ .left → word = 1)

theorem ClientInv.next {word word' : ℕ} {c c' : Client} {a : ClientAction} (h : ClientInv word c)
    (hn : c.next 1 word a = some (word', c')) : ClientInv word' c' ∧ (word ≠ 0 → word' ≠ 0) := by
  cases a with
  | enter =>
    obtain ⟨hpc, ⟨⟩⟩ := ite_none_right_eq_some.mp hn
    have hw : word = 0 := by
      by_contra hw
      exact (h.arrived hw).2.1 hpc
    refine ⟨⟨by simp, by simp, fun hm => ?_, fun hw' => absurd hw hw'⟩, id⟩
    have := h.reported hm
    simp [hpc] at this
  | postRead =>
    obtain ⟨hpc, ⟨⟩⟩ := ite_none_right_eq_some.mp hn
    refine ⟨⟨?_, by simp [hpc.1], h.reported, fun hw => ?_⟩, id⟩
    · cases hp : c.posted with
      | nil => simp
      | cons r posted => simpa [hp] using h.tail
    · exact ⟨by simpa using (h.arrived hw).1, (h.arrived hw).2⟩
  | execute =>
    cases hp : c.posted with
    | nil => simp [Client.next, hp] at hn
    | cons r posted =>
      have hpc : c.pc ≠ .start := fun hs => by simp [h.start hs] at hp
      have htail : .faa ∉ posted := by simpa [hp] using h.tail
      have htt : .faa ∉ posted.tail := fun hm => htail (List.mem_of_mem_tail hm)
      cases r with
      | faa =>
        have hw : word = 0 := by
          by_contra hw
          exact absurd (h.arrived hw).1 (by simp [hp])
        simp only [Client.next, hp] at hn
        cases hn
        exact ⟨⟨htt, fun hs => absurd hs hpc, h.reported, fun _ => ⟨htail, hpc, fun _ => by omega⟩⟩,
          fun _ => by omega⟩
      | read =>
        simp only [Client.next, hp] at hn
        cases hn
        exact ⟨⟨htt, fun hs => absurd hs hpc, h.reported,
          fun hw => ⟨htail, hpc, (h.arrived hw).2.2⟩⟩, id⟩
  | deliver =>
    cases hr : c.responses with
    | nil => simp [Client.next, hr] at hn
    | cons v responses =>
      simp only [Client.next, hr] at hn
      cases hn
      exact ⟨⟨h.tail, h.start, h.reported, h.arrived⟩, id⟩
  | leave =>
    obtain ⟨-, ⟨⟩⟩ := ite_none_right_eq_some.mp hn
    exact ⟨⟨h.tail, by simp, by simp, fun hw => ⟨(h.arrived hw).1, by simp, by simp⟩⟩, id⟩
  | report =>
    obtain ⟨hpc, ⟨⟩⟩ := ite_none_right_eq_some.mp hn
    exact ⟨⟨h.tail, h.start, fun _ => hpc, h.arrived⟩, id⟩

structure Inv (s : State) : Prop where
  client : ClientInv s.word (s.client 0)
  passed : s.server ≠ .waiting → s.word ≠ 0

theorem Inv.init {s : State} (h : (system 1).start s) : Inv s := by
  obtain ⟨hw, hs, hc⟩ := h
  obtain ⟨buf, hc⟩ := hc 0
  refine ⟨?_, by simp [hs]⟩
  constructor <;> simp [hw, hc]

theorem Inv.step {s t : State} {a : Action} (h : Inv s) (hn : next 1 s a = some t) : Inv t := by
  cases a with
  | client i a =>
    obtain ⟨hi, hn⟩ := ite_none_right_eq_some.mp hn
    obtain ⟨⟨word, c⟩, hc, rfl⟩ := map_eq_some_iff.mp hn
    obtain rfl : i = 0 := by omega
    obtain ⟨hinv, hw⟩ := h.client.next hc
    exact ⟨by simpa using hinv, fun hs => hw (h.passed hs)⟩
  | passBarrier =>
    obtain ⟨hg, ⟨⟩⟩ := ite_none_right_eq_some.mp hn
    exact ⟨h.client, fun _ => by simp [hg.2]⟩
  | initPhase =>
    obtain ⟨hg, ⟨⟩⟩ := ite_none_right_eq_some.mp hn
    have harr := h.client.arrived (h.passed (by simp [hg]))
    exact ⟨⟨h.client.tail, h.client.start, h.client.reported,
      fun _ => ⟨harr.1, harr.2.1, fun _ => rfl⟩⟩, fun _ => by simp⟩
  | advancePhase =>
    obtain ⟨hg, ⟨⟩⟩ := ite_none_right_eq_some.mp hn
    have hw := h.passed (by simp [hg.1])
    have hleft := h.client.reported (by rw [hg.2 0 (by omega)]; exact hw)
    have harr := h.client.arrived hw
    exact ⟨⟨h.client.tail, h.client.start, h.client.reported,
      fun _ => ⟨harr.1, harr.2.1, fun hne => absurd hleft hne⟩⟩, fun _ => by simp⟩

theorem Inv.safe {s : State} (h : Inv s) : Safe 1 s := by
  intro hs i hi hpc
  obtain rfl : i = 0 := by omega
  exact .inl ((h.client.arrived (h.passed hs)).2.2 hpc)

def arrived (k : ℕ) : State where
  word := k
  server := .waiting
  client i := if i < k then ⟨.syncing, 0, [], [i], 0⟩ else ⟨.start, 0, [], [], 0⟩

theorem reaches_arrived {k : ℕ} (hk : k ≤ N) : (system N).Reaches (arrived 0) (arrived k) := by
  induction k with
  | zero => exact .refl _
  | succ k ih =>
    have henter : (system N).next (arrived k) (.client k .enter) =
        some { arrived k with
          client := update (arrived k).client k ⟨.syncing, 0, [.faa], [], 0⟩ } := by
      simp [system, next, Client.next, arrived, show k < N by omega]
    refine (ih (by omega)).trans (.trans (.step _ henter) (.step (.client k .execute) ?_))
    simp only [system, next, Client.next, show k < N by omega, if_true, update_self,
      map_some, some.injEq]
    refine State.mk.injEq .. ▸ ⟨rfl, rfl, ?_⟩
    refine update_eq_iff.mpr ⟨by simp [arrived], fun i hi => ?_⟩
    have hlt : i < k + 1 ↔ i < k := by omega
    simp only [arrived, update_of_ne hi, hlt]

/-- The server passes the barrier and overwrites the word while every client still waits. -/
def stranded : State := { arrived N with word := 1, server := .running }

theorem reachable_stranded : (system N).Reachable (stranded N) := by
  have h0 : (system N).Reachable (arrived 0) := .start ⟨rfl, rfl, fun i => ⟨0, by simp [arrived]⟩⟩
  refine (h0.reaches (reaches_arrived N (Nat.le_refl N))).exec [.passBarrier, .initPhase] ?_
  simp [System.exec, system, next, stranded, arrived]

theorem not_safe_stranded (hN : 2 ≤ N) : ¬ Safe N (stranded N) := by
  intro h
  have h0 : (stranded N).client 0 = ⟨.syncing, 0, [], [0], 0⟩ := by
    simp [stranded, arrived, show 0 < N by omega]
  obtain hw | hb | hr := h (by simp [stranded]) 0 (by omega) (by simp [h0])
  · simp only [stranded] at hw
    omega
  · simp only [h0] at hb
    omega
  · simp only [h0, List.mem_singleton] at hr
    omega

def NeverStrands : Prop := ∀ s, (system N).Reachable s → Safe N s

/-- No client can be stranded in the barrier exactly when there is only one. -/
theorem neverStrands_iff (hN : 1 ≤ N) : NeverStrands N ↔ N = 1 := by
  constructor
  · intro h
    by_contra hne
    exact not_safe_stranded N (by omega) (h _ (reachable_stranded N))
  · rintro rfl s hs
    exact (hs.invariant (fun _ => Inv.init) fun _ _ _ hi hn => hi.step hn : Inv s).safe

theorem neverStrands_one : NeverStrands 1 := (neverStrands_iff 1 (Nat.le_refl 1)).mpr rfl

theorem strands_two : ∃ s, (system 2).Reachable s ∧ ¬ Safe 2 s :=
  ⟨stranded 2, reachable_stranded 2, not_safe_stranded 2 (Nat.le_refl 2)⟩

end Fusa.Agent.Barrier

import Fusa.Agent.WaitSync

/-! The RDMA write of a `resp` becomes visible at the client line by line, while the client
waits for its phase and copies its credits. -/
namespace Fusa.Agent.Visibility
open Transition Nat
open WaitSync (stragWords)

/-- A `resp` is a phase word and the words of the credits, in lines of eight words. -/
def respLines : ℕ := (stragWords + 1 + 7) / 8

def lineOf (j : ℕ) : ℕ := (j + 1) / 8

inductive ClientPc
  | report
  | wait
  | copy (i : ℕ)
  | sync
deriving DecidableEq, Repr

/-- The server's `strategies` with its last `resp`, of which `visible` lines have arrived. -/
structure State where
  serverPhase : ℕ
  sent : ℕ → UInt64
  visible : ℕ
  phase : ℕ
  credit : ℕ → UInt64
  strag : ℕ → UInt64
  machinePhase : ℕ
  phaseBuf : ℕ
  client : ClientPc

inductive Action
  | send (credit : ℕ → UInt64)
  | showLine
  | client

/-- One step of the loop of `start_client`. The word that `wait` reads lies in line 0. -/
def State.clientStep (s : State) : State :=
  match s.client with
  | .report =>
    { s with machinePhase := s.machinePhase + 1, phaseBuf := s.phaseBuf + 1, client := .wait }
  | .wait => if s.phase = s.phaseBuf then { s with client := .copy 0 } else s
  | .copy i =>
    { s with
      strag := Function.update s.strag i (s.credit i)
      client := if i + 1 < stragWords then .copy (i + 1) else .sync }
  | .sync => { s with client := .report }

/-- The server sends a `resp` after the client's report, when the last one is written. -/
def next (s : State) : Action → Option State
  | .send credit =>
    if s.machinePhase = s.serverPhase ∧ s.visible = respLines then
      some { s with serverPhase := s.serverPhase + 1, sent := credit, visible := 0 }
    else none
  | .showLine =>
    if s.visible < respLines then
      some { s with
        phase := if s.visible = 0 then s.serverPhase else s.phase
        credit := fun j => if lineOf j = s.visible then s.sent j else s.credit j
        visible := s.visible + 1 }
    else none
  | .client => some s.clientStep

def system : System State Action where
  start s := s.serverPhase = 1 ∧ s.sent = s.credit ∧ s.visible = respLines ∧ s.phase = 0 ∧
    s.machinePhase = 0 ∧ s.phaseBuf = 1 ∧ s.client = .report
  next := next

def ClientPc.copied : ClientPc → ℕ
  | .copy i => i
  | .sync => stragWords
  | _ => 0

/-- What the client has copied in a phase are the credits of that phase's `resp`. -/
def Installed (s : State) : Prop :=
  ∀ j < s.client.copied, s.phaseBuf = s.serverPhase ∧ s.strag j = s.sent j

/-- The look at the phase that ends the wait finds no `resp` partly visible. -/
def WholeResp (s : State) : Action → Prop
  | .client => s.client = .wait → s.phase = s.phaseBuf → s.visible = respLines
  | _ => True

def ClientPc.installing : ClientPc → Prop
  | .copy _ | .sync => True
  | _ => False

/-- The server is one phase ahead of the reports, except before it answers one. -/
structure Inv (s : State) : Prop where
  counter : s.phaseBuf = s.machinePhase + 1
  server : s.serverPhase = s.machinePhase + 1 ∨
    s.client = .wait ∧ s.serverPhase = s.machinePhase
  phase : s.phase ≤ s.serverPhase
  words : ∀ j < stragWords, lineOf j < s.visible → s.credit j = s.sent j
  whole : s.client.installing → s.visible = respLines
  copied : ∀ j < s.client.copied, s.strag j = s.sent j
  bound : ∀ i, s.client = .copy i → i < stragWords

variable {j : ℕ} {s : State}

theorem ClientPc.installing_of_copied {pc : ClientPc} (h : j < pc.copied) : pc.installing := by
  cases pc with
  | copy | sync => trivial
  | report | wait => exact absurd h (not_lt_zero j)

theorem lineOf_lt (h : j < stragWords) : lineOf j < respLines := by
  unfold lineOf respLines
  omega

namespace Inv
variable {t : State} (h : Inv s)
include h

theorem ahead (hw : s.client ≠ .wait) : s.serverPhase = s.machinePhase + 1 :=
  h.server.resolve_right fun hs => hw hs.1

theorem installed : Installed s := by
  intro j hj
  have hi := ClientPc.installing_of_copied hj
  have hs := h.ahead fun hw => by simp [hw, ClientPc.installing] at hi
  exact ⟨h.counter.trans hs.symm, h.copied j hj⟩

theorem send {credit : ℕ → UInt64} (hg : s.machinePhase = s.serverPhase) :
    Inv { s with serverPhase := s.serverPhase + 1, sent := credit, visible := 0 } := by
  have hw : s.client = .wait := by
    by_contra hne
    have := h.ahead hne
    omega
  refine ⟨h.counter, .inl (by simp only; omega), le_succ_of_le h.phase,
    fun _ _ hj => absurd hj (not_lt_zero _), ?_, ?_, h.bound⟩
  · simp [hw, ClientPc.installing]
  · simp [hw, ClientPc.copied]

theorem showLine (hv : s.visible < respLines) :
    Inv { s with
      phase := if s.visible = 0 then s.serverPhase else s.phase
      credit := fun j => if lineOf j = s.visible then s.sent j else s.credit j
      visible := s.visible + 1 } := by
  refine ⟨h.counter, h.server, ?_, fun j hj hl => ?_, fun hi => ?_, h.copied, h.bound⟩
  · simp only
    split
    · exact le_refl _
    · exact h.phase
  · by_cases he : lineOf j = s.visible
    · simp [he]
    · simpa [he] using h.words j hj (by simp only at hl; omega)
  · exact absurd (h.whole hi) (Nat.ne_of_lt hv)

theorem clientStep (hc : WholeResp s .client) : Inv s.clientStep := by
  cases hpc : s.client with
  | report =>
    have hs := h.ahead (by simp [hpc])
    simp only [State.clientStep, hpc]
    refine ⟨by simp only [h.counter], .inr ⟨rfl, hs⟩, h.phase, h.words, ?_, ?_, ?_⟩
    · simp [ClientPc.installing]
    · simp [ClientPc.copied]
    · simp
  | wait =>
    simp only [State.clientStep, hpc]
    split
    · rename_i hp
      refine ⟨h.counter, .inl ?_, h.phase, h.words, fun _ => hc hpc hp, ?_, ?_⟩
      · have := h.counter
        have := h.phase
        rcases h.server with hs | ⟨-, hs⟩
        · exact hs
        · omega
      · simp [ClientPc.copied]
      · intro i hi
        cases hi
        decide
    · exact h
  | copy i =>
    have hi := h.bound i hpc
    have hv : s.visible = respLines := h.whole (hpc ▸ trivial)
    have hcopy : ∀ j < i + 1, Function.update s.strag i (s.credit i) j = s.sent j := by
      intro j hj
      by_cases hji : j = i
      · subst hji
        simpa using h.words j hi (hv ▸ lineOf_lt hi)
      · simpa [hji] using h.copied j (by simp only [hpc, ClientPc.copied]; omega)
    have hs := h.ahead (by simp [hpc])
    simp only [State.clientStep, hpc]
    by_cases hn : i + 1 < stragWords
    · simp only [hn, if_true]
      exact ⟨h.counter, .inl hs, h.phase, h.words, fun _ => hv, hcopy,
        fun j hj => by cases hj; exact hn⟩
    · simp only [hn, if_false]
      refine ⟨h.counter, .inl hs, h.phase, h.words, fun _ => hv, fun j hj => ?_, by simp⟩
      exact hcopy j (by simp only [ClientPc.copied] at hj; omega)
  | sync =>
    have hs := h.ahead (by simp [hpc])
    simp only [State.clientStep, hpc]
    refine ⟨h.counter, .inl hs, h.phase, h.words, ?_, ?_, ?_⟩
    · simp [ClientPc.installing]
    · simp [ClientPc.copied]
    · simp

theorem step {a : Action} (hc : WholeResp s a) (hn : next s a = some t) : Inv t := by
  cases a with
  | send credit =>
    obtain ⟨hg, ⟨⟩⟩ := Option.ite_none_right_eq_some.mp hn
    exact h.send hg.1
  | showLine =>
    obtain ⟨hg, ⟨⟩⟩ := Option.ite_none_right_eq_some.mp hn
    exact h.showLine hg
  | client =>
    cases hn
    exact h.clientStep hc

end Inv

theorem Inv.start (h : system.start s) : Inv s := by
  obtain ⟨hs, hsent, -, hp, hm, hb, hc⟩ := h
  constructor <;> simp [hs, hsent, hp, hm, hb, hc, ClientPc.installing, ClientPc.copied]

/-- A client whose wait never ends at a partly visible `resp` installs the credits it waited
for. -/
theorem installed_of_wholeResp {s : State} (h : system.RunWith WholeResp s) : Installed s :=
  Inv.installed (h.invariant (fun _ => Inv.start) fun _ _ _ hi hc hn => hi.step hc hn)

def fresh : State := ⟨1, fun _ => 0, respLines, 0, fun _ => 0, fun _ => 0, 0, 1, .report⟩

theorem start_fresh : system.start fresh := ⟨rfl, rfl, rfl, rfl, rfl, rfl, rfl⟩

theorem exists_shown (n : ℕ) (h : system.RunWith WholeResp s) (hn : s.visible + n = respLines)
    (hp : s.visible ≠ 0 → s.phase = s.serverPhase) :
    ∃ t, system.RunWith WholeResp t ∧ t.visible = respLines ∧ t.client = s.client ∧
      t.phaseBuf = s.phaseBuf ∧ t.phase = s.serverPhase := by
  induction n generalizing s with
  | zero => exact ⟨s, h, hn, rfl, rfl, hp (by rw [add_zero] at hn; simp [hn, respLines])⟩
  | succ n ih =>
    have hv : s.visible < respLines := by omega
    have hphase : (if s.visible = 0 then s.serverPhase else s.phase) = s.serverPhase := by
      split
      · rfl
      · exact hp ‹_›
    have hnext := h.step Action.showLine trivial (by simp only [system, next, hv, if_true]; rfl)
    obtain ⟨t, ht, htv, htc, htb, htp⟩ := ih hnext (by simp only; omega) fun _ => hphase
    exact ⟨t, ht, htv, htc, htb, htp⟩

theorem exists_copied (n : ℕ) (h : system.RunWith WholeResp s) {i : ℕ} (hc : s.client = .copy i)
    (hn : i + n + 1 = stragWords) : ∃ t, system.RunWith WholeResp t ∧ t.client = .sync := by
  induction n generalizing s i with
  | zero =>
    refine ⟨_, h.step .client (by simp [WholeResp, hc]) rfl, ?_⟩
    simp [State.clientStep, hc, show ¬ i + 1 < stragWords by omega]
  | succ n ih =>
    refine ih (h.step .client (by simp [WholeResp, hc]) rfl) (i := i + 1) ?_ (by omega)
    simp [State.clientStep, hc, show i + 1 < stragWords by omega]

theorem installed_secondPhase : ∃ s, system.RunWith WholeResp s ∧ s.client = .sync ∧
    Installed s := by
  have h0 : system.RunWith WholeResp fresh := .start start_fresh
  obtain ⟨t, ht, htc, htv, htp, hts⟩ : ∃ t, system.RunWith WholeResp t ∧ t.client = .wait ∧
      t.visible = 0 ∧ t.phaseBuf = 2 ∧ t.serverPhase = 2 :=
    ⟨_, h0.exec [.client, .send fun _ => 1]
      ⟨by simp [WholeResp, fresh], fun _ _ => ⟨trivial, fun _ _ => trivial⟩⟩ rfl, rfl, rfl, rfl,
      rfl⟩
  obtain ⟨u, hu, huv, huc, hub, hup⟩ := exists_shown respLines ht (by omega) (by simp [htv])
  have hcheck := hu.step Action.client (fun _ _ => huv) rfl
  obtain ⟨v, hv, hvc⟩ := exists_copied 2047 hcheck (i := 0)
    (by simp [State.clientStep, huc, htc, hup, hub, htp, hts]) rfl
  exact ⟨v, hv, hvc, installed_of_wholeResp hv⟩

/-- The first line of the `resp` is visible when the client looks at the phase. -/
theorem not_installed_firstLine : ∃ s, system.Reachable s ∧ ¬ Installed s := by
  refine ⟨_, (System.Reachable.start start_fresh).exec
    ([.client, .send fun _ => 1, .showLine, .client] ++ List.replicate 8 .client) rfl, fun h => ?_⟩
  exact absurd (h 7 (by decide)).2 (by decide)

end Fusa.Agent.Visibility

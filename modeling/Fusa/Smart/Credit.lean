import Fusa.Smart.RequestsExact
import Fusa.Smart.Tuner

/-! The credit of a thread: taken for each batch that is posted, given back with its
completion, and shifted by the tuner. -/
namespace Fusa.Smart.Credit
open Transition Requests Option

structure State where
  req : Requests.State
  credit : ℤ
  tuner : Tuner

inductive Label
  | request (a : Requests.Label)
  | epoch (ackReqSum : ℕ)

/-- The `total_ack` of a call of `poll_once`. -/
def totalAck (cfg : Config) (s : Requests.State) (node : ℕ) : ℕ :=
  if s.inflightAck = 0 then 0
  else
    let taken := (s.cq (cfg.cqOf node)).take 16
    if taken.all Prod.snd then ((taken.map Prod.fst).map fun c => wrSize c.wrId).sum else 0

/-- What a step adds to the credit; `decrease_credit` comes first, its loop only delays the post. -/
def creditChange (cfg : Config) (s : Requests.State) : Requests.Label → ℤ
  | .post task _ => -(s.reqBuf task).wrList.length
  | .sync task _ => -(s.reqBuf task).wrList.length
  | .poll node => totalAck cfg s node
  | _ => 0

section
variable (cfg : Config) (set : TunerSettings)

def start : State := ⟨initial, set.initialCredit, Tuner.start set⟩

def next (s : State) : Label → Option State
  | .request a =>
    (Requests.next cfg s.req a).map fun r =>
      { s with req := r, credit := s.credit + creditChange cfg s.req a }
  | .epoch ackReqSum =>
    some { s with
      credit := s.credit + Tuner.creditDelta set s.tuner ackReqSum
      tuner := Tuner.epoch set s.tuner ackReqSum }

def system : System State Label := ⟨(· = start set), next cfg set⟩

end

/-- Credit and the requests posted and not yet acknowledged make up the bound. -/
def Conserved (s : State) : Prop := s.credit + s.req.inflightAck = s.tuner.creditBound

/-- The post of a batch by a running task does not fail. -/
def Posts (s : State) : Label → Prop
  | .request (.post task failed) =>
    Runs s.req task → (s.req.reqBuf task).wrList ≠ [] → failed = none
  | .request (.sync task failed) =>
    Runs s.req task → (s.req.reqBuf task).wrList ≠ [] → failed = none
  | _ => True

variable {cfg : Config} {set : TunerSettings} {s t : State} {r r' : Requests.State}

theorem inflightAck_foldl_account (cs : List Completion) (r : Requests.State) :
    (cs.foldl account r).inflightAck = r.inflightAck - (cs.map fun c => wrSize c.wrId).sum := by
  induction cs generalizing r with
  | nil => simp
  | cons c cs ih =>
    rw [List.foldl_cons, ih]
    simp only [account, List.map_cons, List.sum_cons, Nat.cast_add]
    omega

theorem inflightAck_pollOnce (cfg : Config) (r : Requests.State) (node : ℕ) :
    (pollOnce cfg r node).inflightAck = r.inflightAck - totalAck cfg r node := by
  unfold pollOnce totalAck
  dsimp only
  split_ifs
  · simp
  · rw [inflightAck_foldl_account]
    rfl
  · simp [takeCq]

theorem inflightAck_postRequest (cfg : Config) (r : Requests.State) (task : ℕ) (failed : Option ℕ) :
    (postRequest cfg r task failed).inflightAck =
      r.inflightAck + if failed = none then ((r.reqBuf task).wrList.length : ℤ) else 0 := by
  unfold postRequest
  by_cases hnil : (r.reqBuf task).wrList = []
  · simp [hnil]
  · cases failed <;> simp [hnil]

theorem inflightAck_syncBegin (cfg : Config) (r : Requests.State) (task : ℕ) (failed : Option ℕ) :
    (syncBegin cfg r task failed).inflightAck = (postRequest cfg r task failed).inflightAck := by
  unfold syncBegin
  split_ifs <;> rfl

theorem inflightAck_check {task : ℕ} (h : check cfg r task = some r') :
    r'.inflightAck = r.inflightAck := by
  obtain ⟨w, -, h⟩ := bind_eq_some_iff.mp h
  split_ifs at h <;> cases h <;> rfl

theorem inflightAck_spin (h : spin cfg r = some r') : r'.inflightAck = r.inflightAck := by
  obtain ⟨⟨node, stamp⟩, -, h⟩ := bind_eq_some_iff.mp h
  obtain ⟨⟨c, success⟩, -, h⟩ := bind_eq_some_iff.mp h
  dsimp only at h
  split_ifs at h <;> cases h <;> rfl

theorem inflightAck_arrive {node : ℕ} {success : Bool} (h : arrive cfg r node success = some r') :
    r'.inflightAck = r.inflightAck := by
  unfold arrive at h
  split at h
  · cases h
  · cases h
    rfl

def lost (r : Requests.State) : Requests.Label → ℤ
  | .post task failed => if failed = none then 0 else (r.reqBuf task).wrList.length
  | .sync task failed => if failed = none then 0 else (r.reqBuf task).wrList.length
  | _ => 0

theorem posts_iff_lost {a : Requests.Label} (h : Requests.next cfg s.req a = some r) :
    Posts s (.request a) ↔ lost s.req a = 0 := by
  cases a with
  | post task failed | sync task failed =>
    obtain ⟨hr, h⟩ := ite_none_right_eq_some.mp h
    cases failed <;> simp [Posts, lost, hr]
  | _ => simp [Posts, lost]

theorem balance {a : Requests.Label} (h : Requests.next cfg r a = some r') :
    creditChange cfg r a + r'.inflightAck = r.inflightAck - lost r a := by
  cases a with
  | add task node signaled =>
    simp only [Requests.next, addRequest] at h
    split_ifs at h
    cases h
    simp [creditChange, lost]
  | post task failed =>
    obtain ⟨-, ⟨⟩⟩ := ite_none_right_eq_some.mp h
    rw [inflightAck_postRequest]
    simp only [creditChange, lost]
    split_ifs <;> omega
  | sync task failed =>
    obtain ⟨-, ⟨⟩⟩ := ite_none_right_eq_some.mp h
    rw [inflightAck_syncBegin, inflightAck_postRequest]
    simp only [creditChange, lost]
    split_ifs <;> omega
  | check task =>
    obtain ⟨-, h⟩ := ite_none_right_eq_some.mp h
    simp [creditChange, lost, inflightAck_check h]
  | poll node =>
    obtain ⟨-, ⟨⟩⟩ := ite_none_right_eq_some.mp h
    rw [inflightAck_pollOnce]
    simp only [creditChange, lost]
    omega
  | direct node posted =>
    obtain ⟨-, ⟨⟩⟩ := ite_none_right_eq_some.mp h
    simp [creditChange, lost, directBegin]
  | spin => simp [creditChange, lost, inflightAck_spin h]
  | arrive node success => simp [creditChange, lost, inflightAck_arrive h]

theorem conserved_next {a : Label} (h : Conserved s) (hn : next cfg set s a = some t) :
    Conserved t ↔ Posts s a := by
  unfold Conserved at h ⊢
  cases a with
  | request a =>
    obtain ⟨r, hr, rfl⟩ := map_eq_some_iff.mp hn
    have hb := balance hr
    rw [posts_iff_lost hr]
    dsimp only
    omega
  | epoch sum =>
    cases hn
    have hd := Tuner.creditBound_epoch set s.tuner sum
    simp only [Posts, iff_true]
    omega

theorem posts_of_disabled {a : Label} (h : next cfg set s a = none) : Posts s a := by
  cases a with
  | epoch sum => trivial
  | request a =>
    have hn : Requests.next cfg s.req a = none := map_eq_none_iff.mp h
    cases a with
    | post task failed | sync task failed =>
      intro hr
      simp [Requests.next, hr] at hn
    | _ => trivial

theorem conserved_start (set : TunerSettings) : Conserved (start set) := Int.add_zero _

/-- Credit is conserved along calls and epochs exactly when no post of a batch fails. -/
theorem along_conserved_iff (cfg : Config) (set : TunerSettings) (labels : List Label) :
    (system cfg set).Along Conserved (start set) labels ↔
      (system cfg set).AllSteps Posts (start set) labels := by
  refine System.along_iff_allSteps (I := Conserved) (fun _ h => h)
    (fun s a t h hc hn => (conserved_next h hn).mpr hc) (fun s a h hall => ?_)
    (conserved_start set) labels
  cases hn : next cfg set s a with
  | none => exact posts_of_disabled hn
  | some t => exact (conserved_next h hn).mp (hall t hn)

def fourCredits : TunerSettings := ⟨2, 4, 12, 10, fun best sum => best < sum⟩

/-- The post of one request fails: three of four credits are left, with nothing in flight. -/
theorem not_conserved_failedPost : ∃ s, (system twoNodes fourCredits).exec (start fourCredits)
        [.request (.add 1 0 false), .request (.post 1 (some 0))] = some s ∧
      s.credit = 3 ∧ s.req.inflightAck = 0 ∧ s.tuner.creditBound = 4 ∧ ¬ Conserved s := by
  refine ⟨_, rfl, by decide, by decide, by decide, ?_⟩
  unfold Conserved
  decide

end Fusa.Smart.Credit

import Fusa.Common

/-! `do_connect` and `do_accept` over a stream that may end or fail after any byte. -/
namespace Fusa.Smart.Exchange
open List

/-- One direction of the socket: the bytes that still pass, and a bound for each call. -/
structure Channel where
  left : ℕ
  splits : List ℕ

/-- `read` or `write` of `n` bytes. When no byte is left it fails, or returns 0 at an end of
file. -/
def Channel.move (eof : Bool) (n : ℕ) (c : Channel) : Option (ℕ × Channel) :=
  if c.left = 0 then
    if eof then some (0, c) else none
  else
    let k := min (min n (c.splits.headD n + 1)) c.left
    some (k, ⟨c.left - k, c.splits.tail⟩)

/-- `read_fully` and `write_fully`, for at most `turns` calls. -/
def Channel.fully (eof : Bool) : ℕ → ℕ → Channel → Option (Bool × Channel)
  | _, 0, c => some (true, c)
  | 0, _ + 1, _ => none
  | turns + 1, n + 1, c =>
    match c.move eof (n + 1) with
    | none => some (false, c)
    | some (k, c) => fully eof turns (n + 1 - k) c

def Channel.skip (c : Channel) : Channel := ⟨c.left - 1, c.splits.tail⟩

/-- `qp_list` of a node; `deleted` is the pointer that `delete[]` leaves. -/
inductive QpArray
  | null
  | array (qps : List (Option ℕ))
  | deleted

structure RemoteNode where
  qpList : QpArray
  qpSize : ℕ

def RemoteNode.init : RemoteNode := ⟨.null, 0⟩

/-- What the peer sends and what the device answers. -/
structure Env where
  msgSize : ℕ
  qpSizeOf : List UInt8 → ℕ
  classId : ℕ → ℕ
  sent : List UInt8
  eof : Bool
  allocate : ℕ → Option ℕ
  enable : ℕ → Bool

/-- `held` are the queue pairs that the node has had so far. -/
structure Call where
  node : RemoteNode
  free : ℕ → List ℕ
  held : List ℕ
  input : Channel
  output : Channel

/-- What a call does in turn, until something fails. -/
inductive Op
  | fill (qpSize : ℕ)
  | fillPeer
  | enable
  | writeMsg
  | readMsg
  | writeByte
  | readByte (b : UInt8)

def sendLocalInfo (qpSize : ℕ) : List Op := [.fill qpSize, .writeMsg]

def receivePeerInfo : List Op := [.readMsg, .fillPeer, .enable]

/-- The codes of `'A'` and `'B'`. -/
def tcpSynchronize (active : Bool) : List Op :=
  if active then [.readByte 66, .writeByte] else [.writeByte, .readByte 65]

namespace Env
variable (e : Env)

/-- `free_queue_pair` of each element but the null pointers. -/
def freeAll (qps : List (Option ℕ)) (s : Call) : Call :=
  { s with
    free := fun c => (qps.reduceOption.filter fun q => e.classId q = c).reverse ++ s.free c }

/-- The queue pairs of a new `qp_list` are allocated in turn, until one cannot be created. -/
def fill (n : ℕ) (s : Call) : Bool × Call :=
  let qps := ((List.range n).map e.allocate).takeWhile Option.isSome
  ((List.range n).all fun i => (e.allocate i).isSome,
    { s with
      node := ⟨.array (qps ++ List.replicate (n - qps.length) none), n⟩
      free := fun c => (s.free c).diff qps.reduceOption
      held := qps.reduceOption ++ s.held })

/-- `none` when `turns` do not suffice, or the assertion on the size fails. -/
def op (turns : ℕ) (s : Call) : Op → Option (Bool × Call)
  | .fill n =>
    if s.node.qpSize ≠ 0 then some (true, s) else if n = 0 then none else some (e.fill n s)
  | .fillPeer =>
    some (if s.node.qpSize ≠ 0 then (true, s) else e.fill (e.qpSizeOf (e.sent.take e.msgSize)) s)
  | .enable => some (decide (∀ i < s.node.qpSize, e.enable i = true), s)
  | .writeMsg =>
    (s.output.fully false turns e.msgSize).map fun r => (r.1, { s with output := r.2 })
  | .readMsg => (s.input.fully e.eof turns e.msgSize).map fun r => (r.1, { s with input := r.2 })
  | .writeByte => some (s.output.left ≠ 0, { s with output := s.output.skip })
  | .readByte b =>
    some (e.sent[e.sent.length - s.input.left]? = some b, { s with input := s.input.skip })

def exec (turns : ℕ) : List Op → Call → Option (Bool × Call)
  | [], s => some (true, s)
  | a :: l, s => (e.op turns s a).bind fun r => if r.1 then exec turns l r.2 else some r

/-- The code behind `end:`. -/
def cleanup (s : Call) : Call :=
  match s.node.qpList with
  | .array qps => { e.freeAll qps s with node := ⟨.deleted, s.node.qpSize⟩ }
  | _ => s

def disconnect (s : Call) : Call :=
  match s.node.qpList with
  | .array qps => { e.freeAll qps s with node := .init }
  | _ => s

def call (turns : ℕ) (l : List Op) (s : Call) : Option (Bool × Call) :=
  (e.exec turns l s).map fun r => if r.1 then r else (false, e.cleanup r.2)

def doConnect (turns qpSize : ℕ) : Call → Option (Bool × Call) :=
  e.call turns (sendLocalInfo qpSize ++ receivePeerInfo ++ tcpSynchronize false)

def doAccept (turns : ℕ) (s : Call) : Option (Bool × Call) :=
  e.call turns (receivePeerInfo ++ sendLocalInfo 0 ++ tcpSynchronize true) (e.disconnect s)

end Env

/-- The node is as it was constructed, and its queue pairs are on one free list each. -/
def Call.Clean (s : Call) : Prop :=
  s.node = .init ∧ ∀ q ∈ s.held, ∃ c, (s.free c).count q = 1 ∧ ∀ d ≠ c, q ∉ s.free d

/-- With enough turns the call returns, and it has cleaned up when it returns -1. -/
def EndsCleanly (run : ℕ → Option (Bool × Call)) : Prop :=
  ∃ n, ∀ turns ≥ n, ∃ r, run turns = some r ∧ (r.1 = false → r.2.Clean)

inductive Side
  | connect (qpSize : ℕ)
  | accept

def Env.run (e : Env) : Side → Call → ℕ → Option (Bool × Call)
  | .connect n, s, turns => e.doConnect turns n s
  | .accept, s, turns => e.doAccept turns s

/-- Nothing has been read yet, and only `do_accept` finds queue pairs at the node. -/
structure Call.Ready (e : Env) (side : Side) (s : Call) : Prop where
  input : s.input.left = e.sent.length
  node : s.node = .init ∧ s.held = [] ∨
    side = .accept ∧ s.node = ⟨.array (s.held.map some), s.held.length⟩
  nodup : s.held.Nodup
  off : ∀ q ∈ s.held, ∀ c, q ∉ s.free c

/-- Queue pairs are made and enabled, the peer takes message and byte, and sends its own and `b`. -/
def Env.Completes (e : Env) (n : ℕ) (b : UInt8) (s : Call) : Prop :=
  n ≠ 0 ∧ (∀ i < n, (e.allocate i).isSome = true) ∧ (∀ i < n, e.enable i = true) ∧
    e.msgSize < s.output.left ∧ e.sent[e.msgSize]? = some b

/-- Nothing fails, except that the message for `do_accept` may break off with an error. -/
def Env.Smooth (e : Env) (s : Call) : Side → Prop
  | .connect n => e.Completes n 65 s
  | .accept => e.sent.length < e.msgSize ∧ e.eof = false ∨
      e.Completes (e.qpSizeOf (e.sent.take e.msgSize)) 66 s

theorem Channel.fully_eq (eof : Bool) (turns n : ℕ) (c : Channel) :
    (n ≤ c.left → n ≤ turns → ∃ c', c.fully eof turns n = some (true, c') ∧ c'.left = c.left - n) ∧
      (c.left < n → eof = true → c.fully eof turns n = none) ∧
      (c.left < n → eof = false → n ≤ turns → ∃ c', c.fully eof turns n = some (false, c')) := by
  induction turns generalizing n c with
  | zero =>
    cases n with
    | zero => exact ⟨fun _ _ => ⟨c, rfl, rfl⟩, by omega, by omega⟩
    | succ n => exact ⟨by omega, fun _ _ => rfl, by omega⟩
  | succ turns ih =>
    cases n with
    | zero => exact ⟨fun _ _ => ⟨c, rfl, rfl⟩, by omega, by omega⟩
    | succ n =>
      simp only [fully, move]
      by_cases h0 : c.left = 0
      · refine ⟨by omega, ?_, ?_⟩
        · rintro hlt rfl
          simpa [h0] using (ih (n + 1) c).2.1 hlt rfl
        · rintro - rfl -
          exact ⟨c, by simp [h0]⟩
      · simp only [h0, if_false]
        generalize hk : min (min (n + 1) (c.splits.headD (n + 1) + 1)) c.left = k
        refine ⟨fun hle ht => ?_,
          fun hlt he => (ih _ ⟨c.left - k, c.splits.tail⟩).2.1 (by dsimp only; omega) he,
          fun hlt he ht =>
            (ih _ ⟨c.left - k, c.splits.tail⟩).2.2 (by dsimp only; omega) he (by omega)⟩
        obtain ⟨c', hc, hl⟩ :=
          (ih (n + 1 - k) ⟨c.left - k, c.splits.tail⟩).1 (by dsimp only; omega) (by omega)
        exact ⟨c', hc, by dsimp only at hl; omega⟩

/-- The node has a list of `n` queue pairs, and `i` and `o` bytes are left. -/
structure At (n i o : ℕ) (s : Call) : Prop where
  node : ∃ qps, s.node = ⟨.array qps, n⟩
  input : s.input.left = i
  output : s.output.left = o

section
variable {e : Env} {s : Call} {turns n i o i' o' : ℕ} {a : Op} {l : List Op} {P R : Prop}

def Env.Rest (e : Env) (turns : ℕ) (l : List Op) (s : Call) : Prop :=
  ∃ r, e.call turns l s = some r ∧ (r.1 = false → r.2.Clean)

/-- From every such state the operations end cleanly exactly when `R` holds. -/
def Env.Exactly (e : Env) (turns : ℕ) (l : List Op) (n i o : ℕ) (R : Prop) : Prop :=
  ∀ s, At n i o s → (e.Rest turns l s ↔ R)

theorem Env.Rest.cons_of_true {s' : Call} (h : e.op turns s a = some (true, s')) :
    e.Rest turns (a :: l) s ↔ e.Rest turns l s' := by
  simp [Rest, call, exec, h]

theorem Env.Exactly.nil : e.Exactly turns [] n i o True := by
  intro s _
  simp [Rest, call, exec]

/-- Once the node has its list, a failure leaves a deleted one. -/
theorem Env.Rest.not_of_false {s' : Call} (h : e.op turns s a = some (false, s'))
    (hs : ∃ qps, s'.node = ⟨.array qps, n⟩) : ¬ e.Rest turns (a :: l) s := by
  obtain ⟨qps, hs⟩ := hs
  simp [Rest, call, exec, h, cleanup, hs, Call.Clean, RemoteNode.init]

theorem Env.Rest.not_of_none (h : e.op turns s a = none) : ¬ e.Rest turns (a :: l) s := by
  simp [Rest, call, exec, h]

theorem Env.Exactly.cons (h : e.Exactly turns l n i' o' R)
    (hs : ∀ s, At n i o s → P → ∃ s', e.op turns s a = some (true, s') ∧ At n i' o' s')
    (hf : ∀ s, At n i o s → ¬ P → e.op turns s a = none ∨
      ∃ s', e.op turns s a = some (false, s') ∧ s'.node = s.node) :
    e.Exactly turns (a :: l) n i o (P ∧ R) := by
  intro s hat
  by_cases hP : P
  · obtain ⟨s', ho, hat'⟩ := hs s hat hP
    rw [Rest.cons_of_true ho, h s' hat']
    simp [hP]
  · refine iff_of_false ?_ fun hPR => hP hPR.1
    rcases hf s hat hP with ho | ⟨s', ho, hn⟩
    · exact Rest.not_of_none ho
    · exact Rest.not_of_false ho (hn ▸ hat.node)

theorem Env.Exactly.writeMsg (ht : e.msgSize ≤ turns)
    (h : e.Exactly turns l n i (o - e.msgSize) R) :
    e.Exactly turns (.writeMsg :: l) n i o (e.msgSize ≤ o ∧ R) := by
  refine h.cons (fun s hs hle => ?_) fun s hs hlt => ?_
  · obtain ⟨c, hc, hl⟩ :=
      (Channel.fully_eq false turns e.msgSize s.output).1 (hs.output ▸ hle) ht
    rw [hs.output] at hl
    exact ⟨{ s with output := c }, by rw [op, hc]; rfl, hs.node, hs.input, hl⟩
  · obtain ⟨c, hc⟩ := (Channel.fully_eq false turns e.msgSize s.output).2.2
      (by rw [hs.output]; omega) rfl ht
    exact .inr ⟨{ s with output := c }, by rw [op, hc]; rfl, rfl⟩

theorem Env.Exactly.readMsg (ht : e.msgSize ≤ turns) (h : e.Exactly turns l n (i - e.msgSize) o R) :
    e.Exactly turns (.readMsg :: l) n i o (e.msgSize ≤ i ∧ R) := by
  refine h.cons (fun s hs hle => ?_) fun s hs hlt => ?_
  · obtain ⟨c, hc, hl⟩ :=
      (Channel.fully_eq e.eof turns e.msgSize s.input).1 (hs.input ▸ hle) ht
    rw [hs.input] at hl
    exact ⟨{ s with input := c }, by rw [op, hc]; rfl, hs.node, hl, hs.output⟩
  · have hlt : s.input.left < e.msgSize := by rw [hs.input]; omega
    obtain ⟨-, heof, herr⟩ := Channel.fully_eq e.eof turns e.msgSize s.input
    cases he : e.eof with
    | true => exact .inl (by rw [op, heof hlt he]; rfl)
    | false =>
      obtain ⟨c, hc⟩ := herr hlt he ht
      exact .inr ⟨{ s with input := c }, by rw [op, hc]; rfl, rfl⟩

theorem Env.Exactly.test [Decidable P] (h : e.Exactly turns l n i' o' R)
    (ho : ∀ s, At n i o s → ∃ s', e.op turns s a = some (decide P, s') ∧ s'.node = s.node ∧
      s'.input.left = i' ∧ s'.output.left = o') : e.Exactly turns (a :: l) n i o (P ∧ R) := by
  refine h.cons (fun s hs hP => ?_) fun s hs hP => ?_
  · obtain ⟨s', hop, hn, hi, hout⟩ := ho s hs
    exact ⟨s', by rw [hop, decide_eq_true hP], hn ▸ hs.node, hi, hout⟩
  · obtain ⟨s', hop, hn, -⟩ := ho s hs
    exact .inr ⟨s', by rw [hop, decide_eq_false hP], hn⟩

theorem Env.Exactly.enable (h : e.Exactly turns l n i o R) :
    e.Exactly turns (.enable :: l) n i o ((∀ j < n, e.enable j = true) ∧ R) := by
  refine h.test fun s hs => ⟨s, ?_, rfl, hs.input, hs.output⟩
  obtain ⟨qps, hn⟩ := hs.node
  rw [op, hn]

theorem Env.Exactly.writeByte (h : e.Exactly turns l n i (o - 1) R) :
    e.Exactly turns (.writeByte :: l) n i o (o ≠ 0 ∧ R) := by
  refine h.test fun s hs => ⟨{ s with output := s.output.skip }, ?_, rfl, hs.input, ?_⟩
  · rw [op, hs.output]
  · rw [← hs.output, Channel.skip]

theorem Env.Exactly.readByte {b : UInt8} (h : e.Exactly turns l n (i - 1) o R) :
    e.Exactly turns (.readByte b :: l) n i o (e.sent[e.sent.length - i]? = some b ∧ R) := by
  refine h.test fun s hs => ⟨{ s with input := s.input.skip }, ?_, rfl, ?_, hs.output⟩
  · rw [op, hs.input]
  · rw [← hs.input, Channel.skip]

theorem Env.Exactly.fill (h : e.Exactly turns l n i o R) :
    e.Exactly turns (.fill 0 :: l) n i o (n ≠ 0 ∧ R) := by
  refine h.cons (fun s hs hP => ⟨s, ?_, hs⟩) fun s hs hP => .inl ?_
  · obtain ⟨qps, hn⟩ := hs.node
    simp [op, hn, hP]
  · obtain ⟨qps, hn⟩ := hs.node
    simp [op, hn, not_not.mp hP]

theorem Env.Exactly.fillPeer (h0 : n ≠ 0) (h : e.Exactly turns l n i o R) :
    e.Exactly turns (.fillPeer :: l) n i o R := by
  intro s hs
  obtain ⟨qps, hn⟩ := hs.node
  have ho : e.op turns s .fillPeer = some (true, s) := by simp [op, hn, h0]
  rw [Rest.cons_of_true ho, h s hs]

theorem Env.Exactly.of_fill (h : e.Exactly turns l n s.input.left s.output.left R)
    (ho : e.op turns s a = some (e.fill n s)) :
    e.Rest turns (a :: l) s ↔ (∀ j < n, (e.allocate j).isSome = true) ∧ R := by
  have hok : (e.fill n s).1 = true ↔ ∀ j < n, (e.allocate j).isSome = true := by
    simp [Env.fill]
  have hat : At n s.input.left s.output.left (e.fill n s).2 := ⟨⟨_, rfl⟩, rfl, rfl⟩
  rw [← hok]
  cases hb : (e.fill n s).1 with
  | true =>
    rw [Rest.cons_of_true (by rw [ho, ← hb]), h _ hat]
    simp
  | false =>
    have := Rest.not_of_false (l := l) (a := a) (by rw [ho, ← hb]) hat.node
    simp [this]

theorem Env.disconnect_spec (hr : s.Ready e .accept) : (e.disconnect s).Clean ∧
    (e.disconnect s).input = s.input ∧ (e.disconnect s).output = s.output := by
  rcases hr.node with ⟨hn, hh⟩ | ⟨-, hn⟩
  · have hd : e.disconnect s = s := by simp [disconnect, hn, RemoteNode.init]
    rw [hd]
    exact ⟨⟨hn, by simp [hh]⟩, rfl, rfl⟩
  · have hsome : (s.held.map some).reduceOption = s.held := by
      change (s.held.map some).filterMap id = s.held
      simp
    simp only [disconnect, hn, freeAll, hsome, and_true]
    refine ⟨rfl, fun q hq => ⟨e.classId q, ?_, fun d hd hm => ?_⟩⟩
    · rw [count_append, count_reverse, count_eq_zero.mpr (hr.off q hq _),
        count_eq_one_of_mem (hr.nodup.filter _) (by simp [hq])]
    · rcases mem_append.mp hm with hm | hm
      · simp [Ne.symm hd] at hm
      · exact hr.off q hq d hm

/-- A call ends, and cleanly if it fails, exactly when only `do_accept`'s first read may fail. -/
theorem endsCleanly_iff (e : Env) (side : Side) (s : Call) (hr : s.Ready e side) :
    EndsCleanly (e.run side s) ↔ e.Smooth s side := by
  suffices h : ∀ turns ≥ e.msgSize, (∃ r, e.run side s turns = some r ∧
      (r.1 = false → r.2.Clean)) ↔ e.Smooth s side by
    refine ⟨fun ⟨n, hn⟩ => ?_, fun hs => ⟨e.msgSize, fun turns ht => (h turns ht).mpr hs⟩⟩
    exact (h (max n e.msgSize) (le_max_right ..)).mp (hn _ (le_max_left ..))
  intro turns ht
  have hsub : e.msgSize ≤ e.sent.length → e.sent.length - (e.sent.length - e.msgSize) = e.msgSize :=
    fun h => by omega
  cases side with
  | connect n =>
    obtain ⟨hnode, -⟩ := hr.node.resolve_right (by simp)
    by_cases h0 : n = 0
    · refine iff_of_false (Env.Rest.not_of_none ?_) fun h => h.1 h0
      simp [Env.op, hnode, RemoteNode.init, h0]
    · have hop : e.op turns s (.fill n) = some (e.fill n s) := by
        simp [Env.op, hnode, RemoteNode.init, h0]
      refine ((((Env.Exactly.nil.readByte.writeByte.enable.fillPeer h0).readMsg ht).writeMsg
        ht).of_fill hop).trans ?_
      rw [hr.input, Env.Smooth, Env.Completes]
      constructor
      · rintro ⟨hall, ho, hi, hen, hne, hb, -⟩
        exact ⟨h0, hall, hen, by omega, hsub hi ▸ hb⟩
      · rintro ⟨-, hall, hen, ho, hb⟩
        have hi := (List.getElem?_eq_some_iff.mp hb).1.le
        exact ⟨hall, ho.le, hi, hen, by omega, (hsub hi).symm ▸ hb, trivial⟩
  | accept =>
    obtain ⟨hc, hi, ho⟩ := Env.disconnect_spec hr
    have hn := hc.1
    change e.Rest turns _ (e.disconnect s) ↔ _
    rw [Env.Smooth, Env.Completes, ← ho]
    have hin : (e.disconnect s).input.left = e.sent.length := hi ▸ hr.input
    generalize e.disconnect s = s₁ at *
    obtain ⟨hread, heof, herr⟩ := Channel.fully_eq e.eof turns e.msgSize s₁.input
    by_cases hle : e.msgSize ≤ e.sent.length
    · obtain ⟨c, hfull, hl⟩ := hread (hin ▸ hle) ht
      have hr : e.op turns s₁ .readMsg = some (true, { s₁ with input := c }) := by
        rw [Env.op, hfull]
        rfl
      have hop : e.op turns { s₁ with input := c } .fillPeer =
          some (e.fill (e.qpSizeOf (e.sent.take e.msgSize)) { s₁ with input := c }) := by
        simp [Env.op, hn, RemoteNode.init]
      refine (Env.Rest.cons_of_true hr).trans ((((Env.Exactly.nil.writeByte.readByte.writeMsg
        ht).fill.enable).of_fill hop).trans ?_)
      dsimp only
      rw [hl, hin, hsub hle]
      constructor
      · rintro ⟨hall, hen, h0, ho, hb, hne, -⟩
        exact .inr ⟨h0, hall, hen, by omega, hb⟩
      · rintro (⟨hlt, -⟩ | ⟨h0, hall, hen, ho, hb⟩)
        · omega
        · exact ⟨hall, hen, h0, ho.le, hb, by omega, trivial⟩
    · have hlt : s₁.input.left < e.msgSize := by omega
      have hno : e.sent[e.msgSize]? ≠ some 66 := fun hb =>
        hle (List.getElem?_eq_some_iff.mp hb).1.le
      cases he : e.eof with
      | true =>
        refine iff_of_false (Env.Rest.not_of_none ?_) (by simp [hno])
        rw [Env.op, heof hlt he]
        rfl
      | false =>
        obtain ⟨c, hfull⟩ := herr hlt he ht
        refine iff_of_true ⟨(false, { s₁ with input := c }), ?_, fun _ => hc⟩ (by simp; omega)
        simp only [Env.call, receivePeerInfo, cons_append, Env.exec, Env.op, hfull,
          Option.map_some, Option.bind_some, Bool.false_eq_true, if_false, Env.cleanup, hn,
          RemoteNode.init]

def oneByOne : Env := ⟨2, fun msg => (msg.headD 0).toNat, id, [1, 7, 65], true, some, fun _ => true⟩

def idle : Call := ⟨.init, fun _ => [], [], ⟨3, [0, 0, 0]⟩, ⟨3, []⟩⟩

theorem endsCleanly_oneByOne : EndsCleanly (oneByOne.run (.connect 1) idle) := by
  refine (endsCleanly_iff _ _ _ ⟨rfl, .inl ⟨rfl, rfl⟩, nodup_nil, by simp [idle]⟩).mpr ?_
  exact ⟨by decide, by decide, by decide, by decide, rfl⟩

/-- Without a queue pair the call returns -1, and a later `connect` finds the node in use. -/
theorem not_endsCleanly_noQueuePair :
    idle.Ready { oneByOne with allocate := fun _ => none } (.connect 1) ∧
      ¬ EndsCleanly ({ oneByOne with allocate := fun _ => none }.run (.connect 1) idle) := by
  refine ⟨⟨rfl, .inl ⟨rfl, rfl⟩, nodup_nil, by simp [idle]⟩, fun ⟨n, h⟩ => ?_⟩
  obtain ⟨r, hr, hclean⟩ := h n le_rfl
  cases hr
  exact absurd (congrArg RemoteNode.qpSize (hclean rfl).1) (by decide)

end

end Fusa.Smart.Exchange

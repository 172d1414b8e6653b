import Fusa.Driver.FailedPost
import Fusa.Driver.Hook
import Fusa.Driver.OneByOne

/-! What a failed `mlx5_post_send` of an offloaded atomic leaves behind. -/
namespace Fusa.Driver
open Bytes List Nat

namespace Sq
variable {cfg : Cfg} (ram : Ram) {w : SendWr} {b : Build} (qp : Qp) {l : Locals} (nreq : ℕ)

theorem dataLoop_isOk {sgs : List Sge} (hb : b.maxTso = 0) :
    (∃ y, dataLoop cfg w sgs b = .ok y) ↔ (w.opcode = .tso → ∀ sg ∈ sgs, sg.length = 0) := by
  induction sgs generalizing b with
  | nil => simp [dataLoop]
  | cons sg sgs ih =>
    by_cases hz : sg.length = 0
    · simpa [dataLoop, hz] using ih (b := b.wrap cfg) hb
    · have hpos : 0 < sg.length.toNat := UInt32.pos_iff_ne_zero.mpr hz
      by_cases ho : w.opcode = .tso
      · simp [dataLoop, hz, ho, Opcode.isAtomic, Build.wrap, hb, hpos]
      · simp only [dataLoop, hz, ho, if_false, false_imp_iff, iff_true]
        split <;>
        · refine (ih ?_).mpr (absurd · ho)
          exact hb

theorem inlLoop_isOk {sgs : List Sge} {m : Mem} {wqe inl : ℕ} (hm : cfg.maxInlineData ≤ cfg.qend)
    (hw : wqe ≤ cfg.qend) (hi : inl ≤ cfg.maxInlineData) :
    (∃ r, inlLoop cfg ram sgs 0 m wqe inl = .ok r) ↔
      inl + (sgs.map (·.length.toNat)).sum ≤ cfg.maxInlineData := by
  induction sgs generalizing m wqe inl with
  | nil => simpa [inlLoop] using hi
  | cons sg sgs ih =>
    rw [map_cons, sum_cons, ← add_assoc]
    simp only [inlLoop, Nat.not_lt_zero, if_false, Nat.sub_zero]
    split
    · simp only [reduceCtorEq, exists_false, false_iff]
      omega
    · rw [if_neg (by omega)]
      exact ih (cfg.advance_le hw (by omega)) (by omega)

/-- The data of a work request is taken, apart from the headers. -/
abbrev SendWr.DataFits (cfg : Cfg) (w : SendWr) : Prop :=
  if w.sendFlags.inline then (w.sgList.map (·.length.toNat)).sum ≤ cfg.maxInlineData
  else w.opcode = .tso → ∀ sg ∈ w.sgList, sg.length = 0

theorem dataSegs_isOk (hsg : b.sg = ⟨0, 0⟩) (hb : b.maxTso = 0)
    (hm : cfg.maxInlineData ≤ cfg.qend) (hs : w.sendFlags.inline → b.seg + 4 ≤ cfg.qend) :
    (∃ y, dataSegs cfg ram w b = .ok y) ↔ w.DataFits cfg := by
  unfold dataSegs SendWr.DataFits
  by_cases hi : w.sendFlags.inline = true
  · simp only [hi, true_and, if_true]
    by_cases hn : w.sgList = []
    · simp [hn, dataLoop]
    · rw [if_pos hn, setDataInlSeg, hsg, drop_zero]
      rw [← zero_add (sum _), ← inlLoop_isOk ram (m := b.mem) hm (hs hi) (zero_le _)]
      cases inlLoop cfg ram w.sgList 0 b.mem (b.seg + 4) 0 with
      | error e => simp
      | ok r => dsimp only; split <;> simp
  · simp only [hi, hsg, drop_zero]
    exact dataLoop_isOk hb

abbrev Opcode.isUmr (op : Opcode) : Prop := op = .bindMw ∨ op = .localInv

theorem setBindWr_isOk {type : MwType} {rkey : UInt32} {info : BindInfo} :
    (∃ x, setBindWr cfg type rkey info b = .ok x) ↔ info.length.toNat ≤ 2 ^ 31 := by
  unfold setBindWr
  split
  · simp only [reduceCtorEq, exists_false, false_iff]
    omega
  · dsimp only
    split <;> simp <;> omega

theorem umrSegs_isOk {imm rkey : UInt32} {type : MwType} {info : BindInfo} {d : WrData} :
    (∃ x, umrSegs cfg imm type rkey info d b = .ok x) ↔ info.length.toNat ≤ 2 ^ 31 := by
  unfold umrSegs
  rw [← @setBindWr_isOk cfg
    { b with nextFence := 0x20, mem := put b.mem (b.ctrl + 12) (be32 imm) } type rkey]
  cases setBindWr cfg type rkey info _ <;> simp [bind, Except.bind, pure, Except.pure]

theorem rcSegs_isOk : (∃ x, rcSegs cfg w b = .ok x) ↔ (w.opcode.isAtomic → cfg.atomicsEnabled) ∧
      (w.opcode = .bindMw → w.bindInfo.length.toNat ≤ 2 ^ 31) := by
  unfold rcSegs
  cases ho : w.opcode
  case bindMw => simpa [Opcode.isAtomic, bindSegs] using umrSegs_isOk
  case localInv =>
    simp [Opcode.isAtomic, localInvSegs, umrSegs_isOk, BindInfo.zero]
  all_goals cases ha : cfg.atomicsEnabled <;> simp [Opcode.isAtomic]

theorem rcSegs_seg {x : Build} (h : rcSegs cfg w b = .ok x) (hu : ¬ w.opcode.isUmr) :
    x.seg ≤ b.seg + 32 := by
  unfold rcSegs at h
  grind [raddrSegs, Build.emit]

theorem build_isOk (hq : cfg.qpType = .rc) (hm : cfg.maxInlineData ≤ cfg.qend) (hl : Tame cfg l)
    (hu : w.opcode.isUmr → w.sendFlags.inline = false) : (∃ y, build cfg ram qp l w = .ok y) ↔
      ((w.opcode.isAtomic → cfg.atomicsEnabled) ∧
        (w.opcode = .bindMw → w.bindInfo.length.toNat ≤ 2 ^ 31)) ∧ w.DataFits cfg := by
  have hb : build cfg ram qp l w = rcSegs cfg w (start cfg qp l w) >>= dataSegs cfg ram w := by
    simp only [build, headerSegs, hq]
  rw [hb, ← rcSegs_isOk (b := start cfg qp l w)]
  cases hx : rcSegs cfg w (start cfg qp l w) with
  | error e => simp [bind, Except.bind]
  | ok x =>
    obtain ⟨-, hsg, ht⟩ := rcSegs_handsOn hx
    have hslot := cfg.slot_le qp.curPost
    have hd := dataSegs_isOk ram (w := w) (hsg.trans (hl.still (by simp [Cfg.moves, hq])))
      (ht.trans (hl.budget (by simp [hq]))) hm fun hi => by
        have := rcSegs_seg hx fun h => by simp [hu h] at hi
        simp only [start] at this
        omega
    simpa [bind, Except.bind] using hd

/-- What a reliable connection demands of a work request, apart from room for it. -/
structure SendWr.Taken (cfg : Cfg) (w : SendWr) : Prop where
  opcode : w.opcode ≠ .unsupported
  gs : w.sgList.length ≤ cfg.qpStateMaxGs
  atomics : w.opcode.isAtomic → cfg.atomicsEnabled
  bind : w.opcode = .bindMw → w.bindInfo.length.toNat ≤ 2 ^ 31
  data : w.DataFits cfg

theorem check_eq_none : check cfg qp nreq w = none ↔
    w.opcode ≠ .unsupported ∧ wqOverflow cfg qp nreq = false ∧
      w.sgList.length ≤ cfg.qpStateMaxGs := by
  unfold check
  split_ifs <;> simp_all

theorem postOne_isOk (hq : cfg.qpType = .rc) (hm : cfg.maxInlineData ≤ cfg.qend) (hl : Tame cfg l)
    (hu : w.opcode.isUmr → w.sendFlags.inline = false) :
    (∃ r, postOne cfg ram qp nreq l w = .ok r) ↔ wqOverflow cfg qp nreq = false ∧ w.Taken cfg := by
  have hb := build_isOk ram qp hq hm hl hu
  constructor
  · rintro ⟨r, hr⟩
    obtain ⟨hc, y, hy, -⟩ := postOne_ok.mp hr
    obtain ⟨ho, hv, hg⟩ := (check_eq_none qp nreq).mp hc
    obtain ⟨⟨ha, hi⟩, hd⟩ := hb.mp ⟨y, hy⟩
    exact ⟨hv, ho, hg, ha, hi, hd⟩
  · rintro ⟨hv, ht⟩
    obtain ⟨y, hy⟩ := hb.mpr ⟨⟨ht.atomics, ht.bind⟩, ht.data⟩
    exact ⟨_, postOne_ok.mpr ⟨(check_eq_none qp nreq).mpr ⟨ht.opcode, hv, ht.gs⟩, y, hy, rfl⟩⟩

theorem postLoop_err (hq : cfg.qpType = .rc) (hm : cfg.maxInlineData ≤ cfg.qend) (hl : Tame cfg l)
    {chain : List SendWr} (hu : ∀ w ∈ chain, w.opcode.isUmr → w.sendFlags.inline = false) :
    (postLoop cfg ram qp nreq l chain).err = none ↔
      (∀ k < chain.length, wqOverflow cfg qp (nreq + k) = false) ∧ ∀ w ∈ chain, w.Taken cfg := by
  induction chain generalizing qp nreq l with
  | nil => simp [postLoop]
  | cons w chain ih =>
    obtain ⟨hw, hu⟩ := forall_mem_cons.mp hu
    have ho := postOne_isOk ram qp nreq hq hm hl hw
    rw [length_cons, forall_lt_succ_left, forall_mem_cons, add_zero, and_and_and_comm, ← ho,
      postLoop]
    cases hr : postOne cfg ram qp nreq l w with
    | error e => simp
    | ok r =>
      have hsame (k : ℕ) : wqOverflow cfg r.1 (nreq + 1 + k) =
          wqOverflow cfg qp (nreq + (k + 1)) := by
        obtain ⟨-, y, -, rfl⟩ := postOne_ok.mp hr
        rw [add_assoc, add_comm 1]
        rfl
      simp only [ih _ _ (hl.post hr) hu, hsame, Except.ok.injEq, exists_eq', true_and]

end Sq

def PlainOpcode.toSq : PlainOpcode → Sq.Opcode
  | .send => .send
  | .sendWithInv => .sendWithInv
  | .sendWithImm => .sendWithImm
  | .rdmaWrite => .rdmaWrite
  | .rdmaWriteWithImm => .rdmaWriteWithImm
  | .rdmaRead => .rdmaRead
  | .bindMw => .bindMw
  | .localInv => .localInv
  | .tso => .tso
  | .unsupported => .unsupported

def AtomicOpcode.toSq : AtomicOpcode → Sq.Opcode
  | .cmpAndSwp => .atomicCmpAndSwp
  | .fetchAndAdd => .atomicFetchAndAdd

/-- The work request as the send queue takes it. -/
def SendWr.toSq (w : SendWr) : Sq.SendWr :=
  let sgList := w.sgList.map fun sg => ⟨.ofNat sg.addr, .ofNat sg.length, .ofNat sg.lkey⟩
  let f := w.sendFlags
  let sendFlags := ⟨f.fence, f.signaled, f.solicited, f.inline, false⟩
  match w.op with
  | .atomic a rkey =>
    { wrId := .ofNat w.wrId, sgList, opcode := a.opcode.toSq, sendFlags,
      remoteAddr := .ofNat a.remoteAddr, rkey := .ofNat rkey, compareAdd := a.compareAdd,
      swap := a.swap }
  | .plain opcode remoteAddr rkey =>
    { wrId := .ofNat w.wrId, sgList, opcode := opcode.toSq, sendFlags,
      remoteAddr := .ofNat remoteAddr, rkey := .ofNat rkey }

namespace Sq

section
variable (ep : Endpoint) (credit : ℕ → UInt16) (cfg : Cfg) (ram : Ram)

/-- `mlx5_post_send` of `w` with `next` behind it; the hook looks at `w` only. -/
def mlx5PostSend (r : Region) (qp : Qp) (w : Driver.SendWr) (next : List SendWr) :
    (Region × Driver.SendWr) × Qp × Option (Errno × ℕ) :=
  (hookHead ep credit r w, postSend cfg ram qp ((hookHead ep credit r w).2.toSq :: next))

/-- Request, counters, ring offsets and posted receives are those from before the call. -/
structure Restored (r : Region) (w : Driver.SendWr) (after : Region × Driver.SendWr) : Prop where
  request : after.2 = w
  counters : after.1.counters = r.counters
  cCounters : after.1.cCounters = r.cCounters
  remoteOff : after.1.remoteOff = r.remoteOff
  localOff : after.1.localOff = r.localOff
  recvs : after.1.recvs = r.recvs

def FailsClean (r : Region) (qp : Qp) (w : Driver.SendWr) (next : List SendWr) : Prop :=
  (mlx5PostSend ep credit cfg ram r qp w next).2.2 ≠ none →
    Restored r w (mlx5PostSend ep credit cfg ram r qp w next).1

end

variable {ep : Endpoint} {credit : ℕ → UInt16} {r : Region} {w : Driver.SendWr} {a : AtomicWr}
  {rkey : ℕ}

theorem not_restored (ho : w.op = .atomic a rkey) (hc : credit (counterIdx a.remoteAddr) ≠ 0) :
    ¬ Restored r w (hookHead ep credit r w) := by
  intro h
  have hcnt := congrFun h.cCounters (counterIdx a.remoteAddr)
  have hone : w.isCpuAtomic credit (counterIdx a.remoteAddr) = true := by
    simp [SendWr.isCpuAtomic, ho, hc]
  rw [hookHead_cCounters, hone] at hcnt
  simp at hcnt

/-- Of an RDMA write without flags only the scatter list is looked at. -/
theorem taken_hookHead {cfg : Cfg} (ho : w.op = .atomic a rkey)
    (hc : credit (counterIdx a.remoteAddr) ≠ 0) :
    (hookHead ep credit r w).2.toSq.Taken cfg ↔ w.sgList.length ≤ cfg.qpStateMaxGs := by
  simp only [hookHead, ho, hc, if_false, offload, SendWr.toSq]
  constructor
  · intro h
    simpa using h.gs
  · intro h
    refine ⟨by simp [PlainOpcode.toSq], by simpa using h, ?_, ?_, ?_⟩ <;>
    simp [PlainOpcode.toSq, Opcode.isAtomic, SendWr.DataFits, SendFlags.zero]

/-- On a reliable connection a failed offload changes nothing only where the call cannot fail:
room for the chain, a short list of the atomic, and nothing behind it that is refused. -/
theorem failsClean_iff {ep : Endpoint} {credit : ℕ → UInt16} {cfg : Cfg} {ram : Ram} {r : Region}
    {qp : Qp} {w : Driver.SendWr} {next : List SendWr} {a : AtomicWr} {rkey : ℕ}
    (ho : w.op = .atomic a rkey) (hc : credit (counterIdx a.remoteAddr) ≠ 0)
    (hq : cfg.qpType = .rc) (hm : cfg.maxInlineData ≤ cfg.qend)
    (hu : ∀ v ∈ next, v.opcode.isUmr → v.sendFlags.inline = false) :
    FailsClean ep credit cfg ram r qp w next ↔
      (∀ k < next.length + 1, wqOverflow cfg qp k = false) ∧
        w.sgList.length ≤ cfg.qpStateMaxGs ∧ ∀ v ∈ next, v.Taken cfg := by
  have hhead : ((hookHead ep credit r w).2.toSq).opcode = .rdmaWrite := by
    simp [hookHead, ho, hc, offload, SendWr.toSq, PlainOpcode.toSq]
  have hall : ∀ v ∈ (hookHead ep credit r w).2.toSq :: next,
      v.opcode.isUmr → v.sendFlags.inline = false := by
    refine forall_mem_cons.mpr ⟨fun h => ?_, hu⟩
    simp [Opcode.isUmr, hhead] at h
  have herr : (mlx5PostSend ep credit cfg ram r qp w next).2.2 = none ↔
      (∀ k < next.length + 1, wqOverflow cfg qp k = false) ∧
        w.sgList.length ≤ cfg.qpStateMaxGs ∧ ∀ v ∈ next, v.Taken cfg := by
    have := postLoop_err ram qp 0 hq hm (tame_init qp.fmCache) hall
    rw [forall_mem_cons, taken_hookHead ho hc] at this
    simpa [mlx5PostSend, postSend, walk] using this
  rw [← herr]
  constructor
  · intro h
    by_contra hf
    exact not_restored ho hc (h hf)
  · intro h hf
    exact absurd h hf

def casWr : Driver.SendWr := ⟨1, [⟨4104, 8, 1⟩], .atomic ⟨.cmpAndSwp, 128, 0, 7⟩ 1, .zero⟩

/-- Behind the atomic a send with 28 bytes of inline data, all that the queue pair takes. -/
theorem failsClean_inlineBehind :
    FailsClean firstQp (fun _ => 1) fourBlocks (fun _ => 0) .zero (.empty 0) casWr
      [{ opcode := .send, sendFlags := { inline := true }, sgList := [⟨0, 28, 1⟩] }] :=
  (failsClean_iff rfl (by decide) rfl (by decide) (by decide)).mpr
    ⟨by decide, by decide, forall_mem_singleton.mpr
      ⟨by decide, by decide, by decide, by decide, by decide⟩⟩

/-- The full send queue refuses the atomic, which is counted, received for, and an RDMA write. -/
theorem not_failsClean_fullQp : (mlx5PostSend firstQp (fun _ => 1) fourBlocks (fun _ => 0) .zero
      { Qp.empty 0 with head := 4 } casWr []).2.2 = some (.enomem, 0) ∧
    ¬ FailsClean firstQp (fun _ => 1) fourBlocks (fun _ => 0) .zero
      { Qp.empty 0 with head := 4 } casWr [] := by
  refine ⟨by decide +kernel, fun h => ?_⟩
  have hr := h (by decide +kernel)
  exact absurd (congrFun hr.cCounters 16) (by decide +kernel)

end Sq
end Fusa.Driver

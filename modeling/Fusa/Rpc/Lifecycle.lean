import Fusa.Lib.Lists
import Fusa.Rpc.Layout
import Fusa.Server.Request

/-! The life of the requests of one queue pair in `FUSA_RPC` mode. -/
namespace Fusa.Rpc.FusaRpc
open Driver Server Function Option

/-- A server and its clients' buffers whose sizes agree. -/
structure Config where
  region : Region
  lmeta : ℕ → LocalRpcMeta
  qpn : ℕ × ℕ → ℕ
  chunk : rpcOpSize ∣ region.rmeta.rpcChunk
  threads : region.rpcThreadNum ∣ maxRecorderNum
  window_pos : 0 < region.window
  recv_pos : ∀ m, 0 < (lmeta m).maxRpcNum
  machineId : ∀ m, (lmeta m).machineId = m

/-- A request on its way to the ring, with its number among the posts of its queue pair. -/
structure InFlight where
  addr : ℕ
  op : RpcOp
  number : ℕ

/-- A processed request: its number and the value computed for it, if there is one. -/
structure Served where
  number : ℕ
  comp : Option UInt64

/-- The driver's side of a queue pair, what travels on it, and its history; a reply carries the
address of the response slot and `resp_addr`. -/
structure Qp where
  remoteOff : ℕ
  localOff : ℕ
  waiting : Option ℕ
  wire : List InFlight
  replies : List (ℕ × ℕ)
  posted : ℕ
  served : List Served
  returned : List UInt64

def Qp.fresh : Qp := ⟨0, 0, none, [], [], 0, [], []⟩

namespace Config
variable (cfg : Config)

def window : ℕ := cfg.region.window

def recvNum (m : ℕ) : ℕ := (cfg.lmeta m).maxRpcNum

def respAddr (m i j : ℕ) : ℕ :=
  curResp cfg.region.rpcAddr cfg.region.rpcRegionSize cfg.region.window m i j

/-- Slot of the `k`-th request in the ring, and in the receive buffers. -/
def slot (k : ℕ) : Fin cfg.window := ⟨k % cfg.window, Nat.mod_lt _ cfg.window_pos⟩

def recvSlot (m k : ℕ) : Fin (cfg.recvNum m) := ⟨k % cfg.recvNum m, Nat.mod_lt _ (cfg.recv_pos m)⟩

def reqAt (m i : ℕ) (j : Fin cfg.window) : ℕ := cfg.region.scanAddr m i j

def respAt (m i : ℕ) (j : Fin cfg.window) : ℕ := cfg.respAddr m i j

def recvAt (m i : ℕ) (l : Fin (cfg.recvNum m)) : ℕ := (cfg.lmeta m).recvBuf i l

variable {cfg}

theorem reqAt_inj {m i m' i' : ℕ} {j j' : Fin cfg.window} (hi : i < maxRecorderNum)
    (hi' : i' < maxRecorderNum) (h : cfg.reqAt m i j = cfg.reqAt m' i' j') :
    m = m' ∧ i = i' ∧ j = j' := by
  obtain ⟨hm, hi, hj⟩ := curReq_inj hi hi' j.isLt j'.isLt h
  exact ⟨hm, hi, Fin.ext hj⟩

theorem reqAt_injective {m i : ℕ} (hi : i < maxRecorderNum) : Function.Injective (cfg.reqAt m i) :=
  fun _ _ h => (reqAt_inj hi hi h).2.2

theorem respAt_inj {m i m' i' : ℕ} {j j' : Fin cfg.window} (hi : i < maxRecorderNum)
    (hi' : i' < maxRecorderNum) (h : cfg.respAt m i j = cfg.respAt m' i' j') :
    m = m' ∧ i = i' ∧ j = j' := by
  obtain ⟨hm, hi, hj⟩ := curResp_inj hi hi' j.isLt j'.isLt h
  exact ⟨hm, hi, Fin.ext hj⟩

theorem respAt_injective {m i : ℕ} (hi : i < maxRecorderNum) :
    Function.Injective (cfg.respAt m i) :=
  fun _ _ h => (respAt_inj hi hi h).2.2

theorem recvAt_inj {m i i' : ℕ} {l l' : Fin (cfg.recvNum m)}
    (h : cfg.recvAt m i l = cfg.recvAt m i' l') : i = i' ∧ l = l' := by
  obtain ⟨hi, hl⟩ := (cfg.lmeta m).recvBuf_inj l.isLt l'.isLt h
  exact ⟨hi, Fin.ext hl⟩

theorem recvAt_injective {m i : ℕ} : Function.Injective (cfg.recvAt m i) :=
  fun _ _ h => (recvAt_inj h).2

end Config

/-- The driver computes both ring addresses, writes the request and starts to spin. -/
def Qp.post (cfg : Config) (m i : ℕ) (sendBuf : RpcOp) (wr : AtomicWr) (q : Qp) : Qp :=
  let lmeta := cfg.lmeta m
  let recvBuf := lmeta.recvBuf i q.localOff
  { q with
    remoteOff := (q.remoteOff + 1) % cfg.region.rmeta.maxRpcNum
    localOff := (q.localOff + 1) % lmeta.maxRpcNum
    waiting := some recvBuf
    wire := q.wire ++ [⟨cfg.region.driverAddr lmeta.machineId i q.remoteOff,
      encode sendBuf lmeta.machineId (cfg.qpn (m, i)) recvBuf wr, q.posted⟩]
    posted := q.posted + 1 }

/-- The rpc thread posts the reply to request `req` from response slot `r`. -/
def Qp.serve (r : ℕ) (req : RpcOp) (d : Served) (q : Qp) : Qp :=
  { q with replies := q.replies ++ [(r, req.respAddr)], served := q.served ++ [d] }

def outcome (reject : Bool) (mem : ℕ → UInt64) (req resp : RpcOp) (number : ℕ) : Served :=
  ⟨number, if writesResp reject req then some (handle reject mem req resp).resp.comp else none⟩

/-- A queue pair with its own request, response and receive slots. -/
structure View (cfg : Config) (m : ℕ) where
  qp : Qp
  req : Fin cfg.window → RpcOp
  owner : Fin cfg.window → ℕ
  resp : Fin cfg.window → RpcOp
  recv : Fin (cfg.recvNum m) → RpcOp

namespace View
variable {cfg : Config} {m : ℕ}

def post (i : ℕ) (sendBuf : RpcOp) (wr : AtomicWr) (v : View cfg m) : View cfg m :=
  { v with qp := v.qp.post cfg m i sendBuf wr }

def arrive (f : InFlight) (wire : List InFlight) (j : Fin cfg.window) (v : View cfg m) :
    View cfg m :=
  { v with
    qp := { v.qp with wire }
    req := update v.req j f.op
    owner := update v.owner j f.number }

/-- The scan handles the request in slot `j` and posts its reply. -/
def serve (i : ℕ) (reject : Bool) (mem : ℕ → UInt64) (j : Fin cfg.window) (v : View cfg m) :
    View cfg m :=
  let h := handle reject mem (v.req j) (v.resp j)
  { v with
    qp := v.qp.serve (cfg.respAt m i j) (v.req j)
      (outcome reject mem (v.req j) (v.resp j) (v.owner j))
    req := update v.req j h.req
    resp := update v.resp j h.resp }

def deliver (replies : List (ℕ × ℕ)) (j : Fin cfg.window) (l : Fin (cfg.recvNum m))
    (v : View cfg m) : View cfg m :=
  { v with
    qp := { v.qp with replies }
    recv := update v.recv l (v.resp j) }

/-- The call finds the magic value in receive slot `l`, clears it and returns `comp`. -/
def poll (l : Fin (cfg.recvNum m)) (v : View cfg m) : View cfg m :=
  { v with
    qp := { v.qp with waiting := none, returned := v.qp.returned ++ [(v.recv l).comp] }
    recv := update v.recv l { v.recv l with crc := 0 } }

def RingHolds (v : View cfg m) (o : Option (Fin cfg.window)) : Prop :=
  ∀ j, (v.req j).crc = crcCheckMagic ↔ o = some j

def RecvHolds (v : View cfg m) (o : Option (Fin (cfg.recvNum m))) : Prop :=
  ∀ l, (v.recv l).crc = crcCheckMagic → o = some l

structure Spins (i k : ℕ) (v : View cfg m) : Prop where
  posted : v.qp.posted = k + 1
  waiting : v.qp.waiting = some (cfg.recvAt m i (cfg.recvSlot m k))
  returned : v.qp.returned.length = k

/-- The stations of a request. -/
inductive Phase (i : ℕ) (v : View cfg m) : Prop
  | idle (waiting : v.qp.waiting = none) (wire : v.qp.wire = []) (replies : v.qp.replies = [])
      (ring : v.RingHolds none) (recv : v.RecvHolds none)
      (served : v.qp.served.length = v.qp.posted) (returned : v.qp.returned.length = v.qp.posted)
  | onWire (k : ℕ) (spins : v.Spins i k) (f : InFlight) (wire : v.qp.wire = [f])
      (addr : f.addr = cfg.reqAt m i (cfg.slot k)) (number : f.number = k)
      (crc : f.op.crc = crcCheckMagic)
      (respAddr : f.op.respAddr = cfg.recvAt m i (cfg.recvSlot m k))
      (replies : v.qp.replies = []) (ring : v.RingHolds none) (recv : v.RecvHolds none)
      (served : v.qp.served.length = k)
  | inSlot (k : ℕ) (spins : v.Spins i k) (wire : v.qp.wire = [])
      (owner : v.owner (cfg.slot k) = k)
      (respAddr : (v.req (cfg.slot k)).respAddr = cfg.recvAt m i (cfg.recvSlot m k))
      (replies : v.qp.replies = []) (ring : v.RingHolds (some (cfg.slot k)))
      (recv : v.RecvHolds none) (served : v.qp.served.length = k)
  | replying (k : ℕ) (spins : v.Spins i k) (d : Served) (wire : v.qp.wire = [])
      (replies : v.qp.replies = [(cfg.respAt m i (cfg.slot k), cfg.recvAt m i (cfg.recvSlot m k))])
      (ring : v.RingHolds none) (recv : v.RecvHolds none)
      (served : v.qp.served.length = k + 1) (last : v.qp.served[k]? = some d)
      (comp : ∀ w, d.comp = some w →
        (v.resp (cfg.slot k)).crc = crcCheckMagic ∧ (v.resp (cfg.slot k)).comp = w)
  | ready (k : ℕ) (spins : v.Spins i k) (d : Served) (wire : v.qp.wire = [])
      (replies : v.qp.replies = [])
      (ring : v.RingHolds none) (recv : v.RecvHolds (some (cfg.recvSlot m k)))
      (served : v.qp.served.length = k + 1) (last : v.qp.served[k]? = some d)
      (comp : ∀ w, d.comp = some w → (v.recv (cfg.recvSlot m k)).crc = crcCheckMagic ∧
        (v.recv (cfg.recvSlot m k)).comp = w)

/-- Offsets count posts, requests are processed in order, and values returned are their own. -/
structure Inv (i : ℕ) (v : View cfg m) : Prop where
  remoteOff : v.qp.remoteOff = v.qp.posted % cfg.window
  localOff : v.qp.localOff = v.qp.posted % cfg.recvNum m
  numbers : Numbered.From (fun k d => d.number = k) 0 v.qp.served
  values : Numbered.From
    (fun k x => ∃ d, v.qp.served[k]? = some d ∧ ∀ w, d.comp = some w → w = x) 0 v.qp.returned
  phase : v.Phase i

variable {i : ℕ} {v : View cfg m}

theorem Inv.post (h : v.Inv i) (hw : v.qp.waiting = none) (sendBuf : RpcOp) (wr : AtomicWr) :
    (v.post i sendBuf wr).Inv i := by
  obtain ⟨hro, hlo, hn, hv, hph⟩ := h
  cases hph with
  | idle _ hwire hrep hring hrecv hs hr =>
    refine ⟨?_, ?_, hn, hv, .onWire v.qp.posted ⟨rfl, ?_, hr⟩ _
      (by rw [View.post, Qp.post, hwire]; rfl) ?_ rfl rfl ?_ hrep hring hrecv hs⟩
    · simp [View.post, Qp.post, hro, Region.maxRpcNum_eq_window, Config.window]
    · simp [View.post, Qp.post, hlo, Config.recvNum]
    · simp [View.post, Qp.post, hlo, Config.recvAt, Config.recvSlot]
    · simp [hro, Config.reqAt, Config.slot, cfg.machineId, Region.driverAddr_eq_scanAddr cfg.chunk]
    · simp [encode, hlo, Config.recvAt, Config.recvSlot]
  | onWire _ h => simp [h.waiting] at hw
  | inSlot _ h => simp [h.waiting] at hw
  | replying _ h => simp [h.waiting] at hw
  | ready _ h => simp [h.waiting] at hw

variable {f : InFlight} {a : ℕ}

section
variable (h : v.Inv i)
include h

theorem Inv.wire_target {wire : List InFlight} (hw : v.qp.wire = f :: wire) :
    ∃ j, f.addr = cfg.reqAt m i j ∧ (v.req j).crc ≠ crcCheckMagic ∧ (v.arrive f wire j).Inv i := by
  obtain ⟨hro, hlo, hn, hv, hph⟩ := h
  cases hph with
  | idle _ hwire => simp [hwire] at hw
  | onWire k hsp g hwire haddr hnum hcrc hresp hrep hring hrecv hs =>
    obtain ⟨rfl, rfl⟩ : g = f ∧ [] = wire := by simpa [hwire] using hw
    refine ⟨cfg.slot k, haddr, (fun hc => nomatch (hring _).mp hc), hro, hlo, hn, hv, ?_⟩
    refine .inSlot k ⟨hsp.posted, hsp.waiting, hsp.returned⟩ rfl (by simp [View.arrive, hnum])
      (by simp [View.arrive, hresp]) hrep (fun j => ?_) hrecv hs
    by_cases hj : j = cfg.slot k
    · subst hj
      simp [View.arrive, hcrc]
    · simp only [View.arrive, update_of_ne hj, hring j, reduceCtorEq, false_iff, some.injEq]
      exact fun h => hj h.symm
  | inSlot _ _ hwire => simp [hwire] at hw
  | replying _ _ _ hwire => simp [hwire] at hw
  | ready _ _ _ hwire => simp [hwire] at hw

theorem Inv.serve {j : Fin cfg.window} (hj : (v.req j).crc = crcCheckMagic) (reject : Bool)
    (mem : ℕ → UInt64) : (v.serve i reject mem j).Inv i := by
  obtain ⟨hro, hlo, hn, hv, hph⟩ := h
  cases hph with
  | idle _ _ _ hring => cases (hring j).mp hj
  | onWire _ _ _ _ _ _ _ _ _ hring => cases (hring j).mp hj
  | inSlot k hsp hwire howner hresp hrep hring hrecv hs =>
    obtain rfl : cfg.slot k = j := by simpa using (hring j).mp hj
    refine ⟨hro, hlo, hn.concat (by simp [outcome, howner, hs]), hv.imp fun n x _ hlt hx => ?_, ?_⟩
    · obtain ⟨d, hd, hc⟩ := hx
      refine ⟨d, ?_, hc⟩
      rwa [View.serve, Qp.serve, List.getElem?_append_left (List.getElem?_eq_some_iff.mp hd).1]
    · refine .replying k ⟨hsp.posted, hsp.waiting, hsp.returned⟩
        (outcome reject mem (v.req (cfg.slot k)) (v.resp (cfg.slot k)) (v.owner (cfg.slot k)))
        hwire (by simp [View.serve, Qp.serve, hrep, hresp]) (fun j => ?_) hrecv
        (by simp [View.serve, Qp.serve, hs]) (by simp [View.serve, Qp.serve, ← hs]) fun w hw => ?_
      · by_cases hjk : j = cfg.slot k
        · subst hjk
          simp [View.serve, handle_crc, crcCheckMagic]
        · simp only [View.serve, update_of_ne hjk, hring j, reduceCtorEq, iff_false,
            some.injEq]
          exact fun h => hjk h.symm
      · by_cases hwr : writesResp reject (v.req (cfg.slot k)) = true
        · simp only [outcome, hwr, if_true, some.injEq] at hw
          simp [View.serve, handle_resp_crc _ _ hwr, hw]
        · simp [outcome, hwr] at hw
  | replying _ _ _ _ _ hring => cases (hring j).mp hj
  | ready _ _ _ _ _ hring => cases (hring j).mp hj

theorem Inv.reply_target {r : ℕ} {replies : List (ℕ × ℕ)} (hr : v.qp.replies = (r, a) :: replies) :
    ∃ j l, r = cfg.respAt m i j ∧ a = cfg.recvAt m i l ∧ (v.deliver replies j l).Inv i := by
  obtain ⟨hro, hlo, hn, hv, hph⟩ := h
  cases hph with
  | idle _ _ hrep => simp [hrep] at hr
  | onWire _ _ _ _ _ _ _ _ hrep => simp [hrep] at hr
  | inSlot _ _ _ _ _ hrep => simp [hrep] at hr
  | replying k hsp d hwire hrep hring hrecv hs hlast hcomp =>
    obtain ⟨⟨rfl, rfl⟩, rfl⟩ : (_ ∧ _) ∧ [] = replies := by simpa [hrep] using hr
    refine ⟨cfg.slot k, cfg.recvSlot m k, rfl, rfl, hro, hlo, hn, hv, ?_⟩
    refine .ready k ⟨hsp.posted, hsp.waiting, hsp.returned⟩ d hwire rfl hring (fun l hl => ?_) hs
      hlast (by simpa [View.deliver] using hcomp)
    by_cases hlk : l = cfg.recvSlot m k
    · rw [hlk]
    · simp only [View.deliver, update_of_ne hlk] at hl
      cases hrecv l hl
  | ready _ _ _ _ hrep => simp [hrep] at hr

theorem Inv.spinning_at (hw : v.qp.waiting = some a) : ∃ l, a = cfg.recvAt m i l := by
  cases h.phase with
  | idle hwait => simp [hwait] at hw
  | onWire k hsp | inSlot k hsp | replying k hsp | ready k hsp =>
    exact ⟨_, some.inj (hw.symm.trans hsp.waiting)⟩

theorem Inv.accounted : v.qp.returned.length ≤ v.qp.served.length ∧
    v.qp.served.length ≤ v.qp.posted ∧ v.qp.posted ≤ v.qp.returned.length + 1 := by
  cases h.phase with
  | idle _ _ _ _ _ hs hr => omega
  | onWire k hsp _ _ _ _ _ _ _ _ _ hs => have := hsp.posted; have := hsp.returned; omega
  | inSlot k hsp _ _ _ _ _ _ hs => have := hsp.posted; have := hsp.returned; omega
  | replying k hsp _ _ _ _ _ hs => have := hsp.posted; have := hsp.returned; omega
  | ready k hsp _ _ _ _ _ hs => have := hsp.posted; have := hsp.returned; omega

theorem Inv.wire_free (hf : f ∈ v.qp.wire) :
    ∃ j, f.addr = cfg.reqAt m i j ∧ (v.req j).crc ≠ crcCheckMagic := by
  cases h.phase with
  | onWire k _ g hwire haddr _ _ _ _ hring =>
    obtain rfl : f = g := by simpa [hwire] using hf
    exact ⟨_, haddr, fun hc => nomatch (hring _).mp hc⟩
  | idle _ hwire => simp [hwire] at hf
  | inSlot _ _ hwire => simp [hwire] at hf
  | replying _ _ _ hwire => simp [hwire] at hf
  | ready _ _ _ hwire => simp [hwire] at hf

theorem Inv.pending (hw : v.qp.wire = []) (hs : v.qp.served.length < v.qp.posted) :
    ∃ j, (v.req j).crc = crcCheckMagic := by
  cases h.phase with
  | inSlot k _ _ _ _ _ hring => exact ⟨_, (hring _).mpr rfl⟩
  | idle _ _ _ _ _ hs' => omega
  | onWire _ _ _ hwire => simp [hwire] at hw
  | replying k hsp _ _ _ _ _ hs' => have := hsp.posted; omega
  | ready k hsp _ _ _ _ _ hs' => have := hsp.posted; omega

theorem Inv.answered (hw : v.qp.waiting = some a) (hs : v.qp.served.length = v.qp.posted) :
    v.qp.replies ≠ [] ∨ ∃ l d, a = cfg.recvAt m i l ∧ d ∈ v.qp.served ∧
      ∀ w, d.comp = some w → (v.recv l).crc = crcCheckMagic := by
  cases h.phase with
  | idle hwait => simp [hwait] at hw
  | onWire k hsp _ _ _ _ _ _ _ _ _ hs' => have := hsp.posted; omega
  | inSlot k hsp _ _ _ _ _ _ hs' => have := hsp.posted; omega
  | replying _ _ _ _ hrep => exact .inl (by simp [hrep])
  | ready k hsp d _ _ _ _ _ hlast hcomp =>
    exact .inr ⟨_, d, some.inj (hw.symm.trans hsp.waiting), List.mem_of_getElem? hlast,
      fun w hd => (hcomp w hd).1⟩

theorem Inv.poll {l : Fin (cfg.recvNum m)} (hw : v.qp.waiting = some (cfg.recvAt m i l))
    (hl : (v.recv l).crc = crcCheckMagic) : (v.poll l).Inv i := by
  obtain ⟨hro, hlo, hn, hv, hph⟩ := h
  cases hph with
  | idle hwait => simp [hwait] at hw
  | onWire _ _ _ _ _ _ _ _ _ _ hrecv => cases hrecv l hl
  | inSlot _ _ _ _ _ _ _ hrecv => cases hrecv l hl
  | replying _ _ _ _ _ _ hrecv => cases hrecv l hl
  | ready k hsp d hwire hrep hring hrecv hs hlast hcomp =>
    obtain rfl : cfg.recvSlot m k = l := by simpa using hrecv l hl
    refine ⟨hro, hlo, hn, hv.concat ⟨d, ?_, fun w hd => ?_⟩, ?_⟩
    · simpa [hsp.returned] using hlast
    · exact (hcomp w hd).2.symm
    · refine .idle rfl hwire hrep hring (fun l' hl' => ?_) (by simp [View.poll, hs, hsp.posted])
        (by simp [View.poll, hsp.returned, hsp.posted])
      by_cases hlk : l' = cfg.recvSlot m k
      · subst hlk
        simp [View.poll, crcCheckMagic] at hl'
      · simp only [View.poll, update_of_ne hlk] at hl'
        have := hrecv l' hl'
        simp only [some.injEq] at this
        exact absurd this.symm hlk

end

end View
end Fusa.Rpc.FusaRpc

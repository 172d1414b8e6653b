import Fusa.Common

/-! Queue pairs of the `ResourceManager`: creation, the free lists, and the listener. -/
namespace Fusa.Smart
open Function List

/-- The entries of `SmartConfig` that queue-pair allocation reads. -/
structure SmartConfig where
  maxNodes : ℕ
  totalUuars : ℕ
  privateUuars : ℕ
  sharedUuars : ℕ
  uuarAffinityEnabled : Bool

/-- `smart_config.json` has `use_thread_aware_alloc` off and `max_nodes` 128. -/
def smartConfig : SmartConfig := ⟨128, 16, 4, 12, false⟩

/-- The remote end that `enable_queue_pair` connects a queue pair to. -/
structure Peer where
  gid : ℕ
  qpNum : ℕ
deriving DecidableEq, Repr

/-- An entry of `resource_.qp_list`; there is no peer before `enable_queue_pair`. -/
structure QueuePair where
  peer : Option Peer
  classId : ℕ

/-- `free_list` holds, for each class, positions in `qp_list`, last freed first. -/
structure Resource where
  qpList : List QueuePair
  freeList : ℕ → List ℕ
  nextClassId : ℕ

/-- What a connecting client sends: its GID and its QP numbers. -/
structure ExchangeMessage where
  gid : ℕ
  qpNum : List ℕ

/-- `node_list_` keeps the queue pairs of a node as positions in `qp_list`. -/
structure ResourceManager where
  resource : Resource
  nodeList : ℕ → List ℕ

def Resource.empty : Resource := ⟨[], fun _ => [], 0⟩

def ResourceManager.empty : ResourceManager := ⟨.empty, fun _ => []⟩

section
variable (cfg : SmartConfig)

def createQueuePair (r : Resource) : Resource where
  qpList := r.qpList ++ [⟨none, r.nextClassId⟩]
  freeList := update r.freeList r.nextClassId
    (r.qpList.length :: r.freeList r.nextClassId)
  nextClassId :=
    if r.nextClassId + 1 = cfg.totalUuars then cfg.privateUuars else r.nextClassId + 1

def takeFree (free : ℕ → List ℕ) : List ℕ → Option (ℕ × (ℕ → List ℕ))
  | [] => none
  | c :: cs =>
    match free c with
    | [] => takeFree free cs
    | q :: qs => some (q, update free c qs)

/-- The free lists searched: one class under the static mapping, else all of them. -/
def searched (affinity : ℕ) : List ℕ :=
  if cfg.uuarAffinityEnabled then [cfg.privateUuars + affinity % cfg.sharedUuars]
  else List.range cfg.totalUuars

/-- The `start:` loop; `none` is the failed assertion on `loop_count`. -/
def allocateLoop (affinity : ℕ) : ℕ → Resource → Option (ℕ × Resource)
  | 0, _ => none
  | n + 1, r =>
    match takeFree r.freeList (searched cfg affinity) with
    | some (q, free) => some (q, { r with freeList := free })
    | none => allocateLoop affinity n (createQueuePair cfg r)

def allocateQueuePair (affinity : ℕ) (r : Resource) : Option (ℕ × Resource) :=
  allocateLoop cfg affinity (cfg.totalUuars - 1) r

/-- `qp_list[i] = allocate_queue_pair(i)` for the indices from `i` on. -/
def allocateAll : ℕ → ℕ → Resource → Option (List ℕ × Resource)
  | _, 0, r => some ([], r)
  | i, n + 1, r => do
    let (q, r) ← allocateQueuePair cfg i r
    let (qs, r) ← allocateAll (i + 1) n r
    pure (q :: qs, r)

def enableQueuePair (q : ℕ) (peer : Peer) (r : Resource) : Resource :=
  { r with qpList := r.qpList.modify q fun qp => { qp with peer := some peer } }

def freeQueuePair (q : ℕ) (r : Resource) : Resource :=
  match r.qpList[q]? with
  | none => r
  | some qp =>
    { r with freeList := update r.freeList qp.classId (q :: r.freeList qp.classId) }

def disconnect (nodeId : ℕ) (rm : ResourceManager) : ResourceManager where
  resource := (rm.nodeList nodeId).foldl (fun r q => freeQueuePair q r) rm.resource
  nodeList := update rm.nodeList nodeId []

/-- `receive_peer_info` on a node without queue pairs, for an exchange that succeeds. -/
def receivePeerInfo (nodeId : ℕ) (msg : ExchangeMessage) (rm : ResourceManager) :
    Option ResourceManager := do
  let (qs, r) ← allocateAll cfg 0 msg.qpNum.length rm.resource
  pure ⟨(qs.zip msg.qpNum).foldl (fun r p => enableQueuePair p.1 ⟨msg.gid, p.2⟩ r) r,
    update rm.nodeList nodeId qs⟩

def doAccept (nodeId : ℕ) (msg : ExchangeMessage) (rm : ResourceManager) :
    Option ResourceManager :=
  receivePeerInfo cfg nodeId msg
    (if rm.nodeList nodeId = [] then rm else disconnect nodeId rm)

/-- `Listener::thread_func`: the n-th connection takes the front id of a rotated queue. -/
def listen (rm : ResourceManager) : ℕ → List ExchangeMessage → Option ResourceManager
  | _, [] => some rm
  | n, msg :: msgs => do
    let rm ← doAccept cfg (n % cfg.maxNodes) msg rm
    listen rm (n + 1) msgs

/-- `none` when the assertion on the node id fails. -/
def getQpSize (rm : ResourceManager) (nodeId : ℕ) : Option ℕ :=
  if nodeId < cfg.maxNodes then some (rm.nodeList nodeId).length else none

end

/-- `none` outside `qp_list` and for a queue pair that was never connected. -/
def getQpDestQpNum (rm : ResourceManager) (qpIdx : ℕ) : Option ℕ := do
  let qp ← rm.resource.qpList[qpIdx]?
  let peer ← qp.peer
  pure peer.qpNum

def Resource.peers (r : Resource) : List (Option Peer) := r.qpList.map QueuePair.peer

/-- No queue pair is waiting on a free list, and the next class exists. -/
structure Resource.AllInUse (cfg : SmartConfig) (r : Resource) : Prop where
  free : ∀ c, r.freeList c = []
  next : r.nextClassId < cfg.totalUuars

variable {free : ℕ → List ℕ} {cs : List ℕ} {r : Resource}

theorem takeFree_eq_none (h : ∀ c, free c = []) : takeFree free cs = none := by
  induction cs with
  | nil => rfl
  | cons c cs ih => simp [takeFree, h c, ih]

theorem takeFree_update {c q : ℕ} (h : ∀ c, free c = []) (hc : c ∈ cs) :
    takeFree (update free c [q]) cs = some (q, free) := by
  induction cs with
  | nil => simp at hc
  | cons d cs ih =>
    by_cases hd : d = c
    · subst hd
      have hfree : update (update free d [q]) d [] = free := by
        rw [update_idem, ← h d, update_eq_self]
      simp [takeFree, hfree]
    · have hm : c ∈ cs := (mem_cons.mp hc).resolve_left (Ne.symm hd)
      simp [takeFree, update_of_ne hd, h d, ih hm]

theorem enableQueuePair_peers (q : ℕ) (peer : Peer) (r : Resource) :
    (enableQueuePair q peer r).peers = r.peers.set q (some peer) := by
  apply ext_getElem?
  intro i
  simp only [enableQueuePair, Resource.peers, List.getElem?_map, List.getElem?_modify,
    List.getElem?_set, length_map]
  by_cases hq : q = i
  · subst hq
    by_cases hl : q < r.qpList.length
    · simp [hl]
    · simp [hl]
  · simp [hq]

theorem enable_peers (gid : ℕ) (ns : List ℕ) (ps : List (Option Peer))
    (h : r.peers = ps ++ List.replicate ns.length none) :
    let r' := ((List.range' ps.length ns.length).zip ns).foldl
      (fun r p => enableQueuePair p.1 ⟨gid, p.2⟩ r) r
    r'.peers = ps ++ ns.map (fun q => some ⟨gid, q⟩) ∧ r'.freeList = r.freeList ∧
      r'.nextClassId = r.nextClassId := by
  induction ns generalizing ps r with
  | nil => simpa using h
  | cons q ns ih =>
    have hset : (enableQueuePair ps.length ⟨gid, q⟩ r).peers =
        (ps ++ [some ⟨gid, q⟩]) ++ List.replicate ns.length none := by
      rw [enableQueuePair_peers, h]
      simp [replicate_succ]
    have := ih (ps ++ [some ⟨gid, q⟩]) hset
    simpa [List.range'_succ, enableQueuePair] using this

def connected (msgs : List ExchangeMessage) : List (Option Peer) :=
  msgs.flatMap fun msg => msg.qpNum.map fun q => some ⟨msg.gid, q⟩

section
variable {cfg : SmartConfig} (haff : cfg.uuarAffinityEnabled = false)
  (htotal : 2 < cfg.totalUuars) (hpriv : cfg.privateUuars < cfg.totalUuars)
include haff htotal hpriv

theorem allocateQueuePair_fresh (i : ℕ) (h : r.AllInUse cfg) :
    ∃ r', allocateQueuePair cfg i r = some (r.qpList.length, r') ∧ r'.AllInUse cfg ∧
      r'.peers = r.peers ++ [none] := by
  obtain ⟨n, hn⟩ : ∃ n, cfg.totalUuars - 1 = n + 2 := ⟨cfg.totalUuars - 3, by omega⟩
  have hs : searched cfg i = List.range cfg.totalUuars := by simp [searched, haff]
  refine ⟨{ createQueuePair cfg r with freeList := r.freeList }, ?_, ⟨h.free, ?_⟩, ?_⟩
  · have htake := takeFree_update (q := r.qpList.length) h.free (mem_range.mpr h.next)
    simp [allocateQueuePair, hn, allocateLoop, hs, takeFree_eq_none h.free, createQueuePair,
      h.free r.nextClassId, htake]
  · simp only [createQueuePair]
    have := h.next
    split_ifs <;> omega
  · simp [createQueuePair, Resource.peers]

theorem allocateAll_fresh (n i : ℕ) (h : r.AllInUse cfg) :
    ∃ r', allocateAll cfg i n r = some (List.range' r.qpList.length n, r') ∧ r'.AllInUse cfg ∧
      r'.peers = r.peers ++ List.replicate n none := by
  induction n generalizing i r with
  | zero => exact ⟨r, rfl, h, by simp⟩
  | succ n ih =>
    obtain ⟨r1, h1, hu1, hp1⟩ := allocateQueuePair_fresh haff htotal hpriv i h
    obtain ⟨r2, h2, hu2, hp2⟩ := ih (i + 1) hu1
    have hlen : r1.qpList.length = r.qpList.length + 1 := by
      simpa [Resource.peers] using congrArg List.length hp1
    refine ⟨r2, ?_, hu2, ?_⟩
    · simp [allocateAll, h1, h2, hlen, List.range'_succ]
    · rw [hp2, hp1, append_assoc, replicate_succ, singleton_append]

theorem doAccept_fresh (nodeId : ℕ) (msg : ExchangeMessage) {rm : ResourceManager}
    (hu : rm.resource.AllInUse cfg) (hnode : rm.nodeList nodeId = []) :
    ∃ rm', doAccept cfg nodeId msg rm = some rm' ∧ rm'.resource.AllInUse cfg ∧
      rm'.resource.peers = rm.resource.peers ++ msg.qpNum.map (fun q => some ⟨msg.gid, q⟩) ∧
      (rm'.nodeList nodeId).length = msg.qpNum.length ∧
      ∀ m, m ≠ nodeId → rm'.nodeList m = rm.nodeList m := by
  obtain ⟨r, hr, hur, hpr⟩ := allocateAll_fresh haff htotal hpriv msg.qpNum.length 0 hu
  have hlen : rm.resource.peers.length = rm.resource.qpList.length := by simp [Resource.peers]
  have hen := enable_peers msg.gid msg.qpNum rm.resource.peers hpr
  rw [hlen] at hen
  obtain ⟨hp, hf, hn⟩ := hen
  refine ⟨_, by simp [doAccept, hnode, receivePeerInfo, hr]; rfl, ⟨?_, ?_⟩, hp, ?_, ?_⟩
  · simpa only [hf] using hur.free
  · simpa only [hn] using hur.next
  · simp
  · intro m hm
    simp [update_of_ne hm]

theorem listen_fresh (msgs : List ExchangeMessage) (n : ℕ) (rm : ResourceManager)
    (hu : rm.resource.AllInUse cfg) (hnode : ∀ m, n ≤ m → rm.nodeList m = [])
    (hmax : n + msgs.length ≤ cfg.maxNodes) : ∃ rm', listen cfg rm n msgs = some rm' ∧
      rm'.resource.peers = rm.resource.peers ++ connected msgs ∧
      (∀ m < n, rm'.nodeList m = rm.nodeList m) ∧
      ∀ i msg, msgs[i]? = some msg → (rm'.nodeList (n + i)).length = msg.qpNum.length := by
  induction msgs generalizing n rm with
  | nil => exact ⟨rm, rfl, by simp [connected], fun _ _ => rfl, by simp⟩
  | cons msg msgs ih =>
    rw [length_cons] at hmax
    obtain ⟨r1, h1, hu1, hp1, hl1, ho1⟩ :=
      doAccept_fresh haff htotal hpriv n msg hu (hnode n le_rfl)
    have hnode1 : ∀ m, n + 1 ≤ m → r1.nodeList m = [] := fun m hm => by
      rw [ho1 m (by omega), hnode m (by omega)]
    obtain ⟨r2, h2, hp2, ho2, hl2⟩ := ih (n + 1) r1 hu1 hnode1 (by omega)
    refine ⟨r2, ?_, ?_, ?_, ?_⟩
    · simp [listen, Nat.mod_eq_of_lt (by omega : n < cfg.maxNodes), h1, h2]
    · rw [hp2, hp1, append_assoc]
      simp [connected]
    · intro m hm
      rw [ho2 m (by omega), ho1 m (by omega)]
    · intro i m hi
      cases i with
      | zero =>
        obtain rfl : msg = m := by simpa using hi
        rw [Nat.add_zero, ho2 n (by omega), hl1]
      | succ i =>
        have := hl2 i m (by simpa using hi)
        rwa [show n + (i + 1) = n + 1 + i by omega]

end
end Fusa.Smart

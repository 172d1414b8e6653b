import Fusa.Lib.Lists
import Fusa.Smart.ResourceManager

/-! The table with which `rpc_func_impl` finds the queue pair that a reply goes to. -/
namespace Fusa.Server
open Smart FirstWins List Option

section
variable (cfg : SmartConfig) (rm : ResourceManager)

/-- The inner loop: entries for `n` queue pairs of node `i`, from the `j`-th on. -/
def emplaceNode (i tmpTtQp : ℕ) : ℕ → ℕ → List (ℕ × ℕ) → Option (List (ℕ × ℕ))
  | 0, _, table => some table
  | n + 1, j, table => do
    let destQpNum ← getQpDestQpNum rm (tmpTtQp + j)
    emplaceNode i tmpTtQp n (j + 1) (emplace table (destQpNum + i * qpOff) (tmpTtQp + j))

/-- The outer loop over `n` nodes from node `i` on. -/
def emplaceNodes : ℕ → ℕ → ℕ → List (ℕ × ℕ) → Option (List (ℕ × ℕ))
  | 0, _, _, table => some table
  | n + 1, i, tmpTtQp, table => do
    let nrQp ← getQpSize cfg rm i
    let table ← emplaceNode rm i tmpTtQp nrQp 0 table
    emplaceNodes n (i + 1) (tmpTtQp + nrQp) table

def qpnTable (machineNum : ℕ) : Option (List (ℕ × ℕ)) := emplaceNodes cfg rm machineNum 0 0 []

end

/-- A client machine: the id in its configuration and its QP numbers. -/
structure Client where
  gid : ℕ
  machineId : ℕ
  qpNums : List ℕ

def Client.message (c : Client) : ExchangeMessage := ⟨c.gid, c.qpNums⟩

/-- Clients as they connect: machines with the ids `0..N-1`, and distinct QP numbers on each. -/
structure Fleet where
  clients : List Client
  gids : (clients.map Client.gid).Nodup
  machineIds : (clients.map Client.machineId).Perm (List.range clients.length)
  nonempty : ∀ c ∈ clients, c.qpNums ≠ []
  qpns : ∀ c ∈ clients, c.qpNums.Nodup ∧ ∀ q ∈ c.qpNums, q < 2 ^ 24

/-- The key under which a client's request asks for its queue pair. -/
def Client.key (c : Client) (q : ℕ) : ℕ := q + c.machineId * qpOff

/-- Once all clients are connected, every request finds the queue pair of its sender. -/
def RepliesRouted (cfg : SmartConfig) (f : Fleet) : Prop :=
  ∃ rm table, listen cfg .empty 0 (f.clients.map Client.message) = some rm ∧
    qpnTable cfg rm f.clients.length = some table ∧
    ∀ c ∈ f.clients, ∀ q ∈ c.qpNums, ∃ t, table.lookup (c.key q) = some t ∧
      rm.resource.peers[t]? = some (some ⟨c.gid, q⟩)

def storedKeys : ℕ → List Client → List ℕ
  | _, [] => []
  | i, c :: cs => c.qpNums.map (· + i * qpOff) ++ storedKeys (i + 1) cs

variable {i : ℕ} {cs : List Client} {x : ℕ × Client × ℕ}

theorem getQpDestQpNum_of_peers {rm : ResourceManager} {p : Peer}
    (h : rm.resource.peers[i]? = some (some p)) : getQpDestQpNum rm i = some p.qpNum := by
  rw [Resource.peers, List.getElem?_map] at h
  obtain ⟨qp, hq, hp⟩ := map_eq_some_iff.mp h
  simp [getQpDestQpNum, hq, hp]

section
variable {rm : ResourceManager} (pre post : List (Option Peer))

theorem emplaceNode_lookup (i gid : ℕ) (qs : List ℕ) (tmp j : ℕ) (table : List (ℕ × ℕ))
    (hpeers : rm.resource.peers = pre ++ qs.map (fun q => some ⟨gid, q⟩) ++ post)
    (hpre : pre.length = tmp + j) : ∃ table', emplaceNode rm i tmp qs.length j table = some table' ∧
      ∀ k, table'.lookup k = (table ++ (qs.map (· + i * qpOff)).zipIdx (tmp + j)).lookup k := by
  induction qs generalizing pre j table with
  | nil => exact ⟨table, rfl, by simp⟩
  | cons q qs ih =>
    have hq : rm.resource.peers[tmp + j]? = some (some ⟨gid, q⟩) := by
      simp [hpeers, ← hpre]
    obtain ⟨t, ht, hl⟩ := ih (pre ++ [some ⟨gid, q⟩]) (j + 1)
      (emplace table (q + i * qpOff) (tmp + j)) (by simp [hpeers]) (by simp [hpre]; omega)
    refine ⟨t, by simp [emplaceNode, getQpDestQpNum_of_peers hq, ht], fun k => ?_⟩
    rw [hl, lookup_append, lookup_emplace, ← lookup_append]
    simp [zipIdx_cons, Nat.add_assoc]

theorem emplaceNodes_lookup {cfg : SmartConfig} (cs : List Client) (i tmp : ℕ)
    (table : List (ℕ × ℕ)) (hpeers : rm.resource.peers = pre ++ connected (cs.map Client.message))
    (hpre : pre.length = tmp) (hmax : i + cs.length ≤ cfg.maxNodes)
    (hsize : ∀ a c, cs[a]? = some c → (rm.nodeList (i + a)).length = c.qpNums.length) :
    ∃ table', emplaceNodes cfg rm cs.length i tmp table = some table' ∧
      ∀ k, table'.lookup k = (table ++ (storedKeys i cs).zipIdx tmp).lookup k := by
  induction cs generalizing pre i tmp table with
  | nil => exact ⟨table, rfl, by simp [storedKeys]⟩
  | cons c cs ih =>
    rw [length_cons] at hmax
    have hnr : getQpSize cfg rm i = some c.qpNums.length := by
      simpa [getQpSize, show i < cfg.maxNodes by omega] using hsize 0 c rfl
    obtain ⟨t1, h1, hl1⟩ := emplaceNode_lookup pre (connected (cs.map Client.message)) i c.gid
      c.qpNums tmp 0 table
      (by simpa [connected, Client.message] using hpeers) (by simp [hpre])
    obtain ⟨t2, h2, hl2⟩ := ih (pre ++ c.qpNums.map fun q => some ⟨c.gid, q⟩) (i + 1)
      (tmp + c.qpNums.length) t1 (by simpa [connected, Client.message] using hpeers)
      (by simp [hpre]) (by omega)
      (fun a c' h => by simpa [show i + 1 + a = i + (a + 1) by omega] using hsize (a + 1) c' h)
    refine ⟨t2, by simp [emplaceNodes, hnr, h1, h2], fun k => ?_⟩
    rw [hl2, lookup_append, hl1, ← lookup_append]
    simp [storedKeys, zipIdx_append]

end

/-- The cells of the table: accept position, client and QP number, in creation order. -/
def cellsFrom : ℕ → List Client → List (ℕ × Client × ℕ)
  | _, [] => []
  | i, c :: cs => c.qpNums.map (fun q => (i, c, q)) ++ cellsFrom (i + 1) cs

theorem storedKeys_eq (i : ℕ) (cs : List Client) :
    storedKeys i cs = (cellsFrom i cs).map fun x => x.2.2 + x.1 * qpOff := by
  induction cs generalizing i with
  | nil => rfl
  | cons c cs ih => simp [storedKeys, cellsFrom, ih, Function.comp_def]

theorem connected_eq (i : ℕ) (cs : List Client) : connected (cs.map Client.message) =
      (cellsFrom i cs).map fun x => some ⟨x.2.1.gid, x.2.2⟩ := by
  induction cs generalizing i with
  | nil => rfl
  | cons c cs ih =>
    have := ih (i + 1)
    simp [connected, cellsFrom, Client.message, Function.comp_def, ← this]

theorem mem_cellsFrom :
    x ∈ cellsFrom i cs ↔ i ≤ x.1 ∧ cs[x.1 - i]? = some x.2.1 ∧ x.2.2 ∈ x.2.1.qpNums := by
  induction cs generalizing i with
  | nil => simp [cellsFrom]
  | cons c cs ih =>
    obtain ⟨a, d, q⟩ := x
    simp only [cellsFrom, List.mem_append, List.mem_map, Prod.mk.injEq, ih]
    constructor
    · rintro (⟨q', hq', rfl, rfl, rfl⟩ | ⟨hi, hc, hq⟩)
      · simpa using hq'
      · refine ⟨by omega, ?_, hq⟩
        rw [show a - i = a - (i + 1) + 1 by omega]
        simpa using hc
    · rintro ⟨hi, hc, hq⟩
      by_cases ha : a = i
      · subst ha
        obtain rfl : c = d := by simpa using hc
        exact Or.inl ⟨q, hq, rfl, rfl, rfl⟩
      · refine Or.inr ⟨by omega, ?_, hq⟩
        rw [show a - i = a - (i + 1) + 1 by omega] at hc
        simpa using hc

theorem peers_nodup (hgid : (cs.map Client.gid).Nodup) (hqpn : ∀ c ∈ cs, c.qpNums.Nodup) :
    ((cellsFrom i cs).map fun x => (x.2.1.gid, x.2.2)).Nodup := by
  induction cs generalizing i with
  | nil => simp [cellsFrom]
  | cons c cs ih =>
    rw [map_cons, nodup_cons] at hgid
    rw [cellsFrom, List.map_append, List.map_map, List.nodup_append']
    refine ⟨(hqpn c (by simp)).map fun q q' h => (Prod.mk.inj h).2,
      ih hgid.2 fun d hd => hqpn d (by simp [hd]), ?_⟩
    intro p hp hp'
    obtain ⟨q, -, rfl⟩ := mem_map.mp hp
    obtain ⟨x, hx, he⟩ := mem_map.mp hp'
    refine hgid.1 (mem_map.mpr ⟨x.2.1, mem_of_getElem? (mem_cellsFrom.mp hx).2.1, ?_⟩)
    exact (Prod.mk.inj he).1

/-- With more clients than `max_nodes` the assertion on the node id fails. -/
theorem qpnTable_overflow (cfg : SmartConfig) (f : Fleet) (hmax : cfg.maxNodes < f.clients.length) :
    ¬ RepliesRouted cfg f := by
  rintro ⟨rm, table, -, ht, -⟩
  suffices h : ∀ n i tmp t, i ≤ cfg.maxNodes → cfg.maxNodes < i + n →
      emplaceNodes cfg rm n i tmp t = none by
    rw [qpnTable, h _ 0 0 [] (by omega) (by omega)] at ht
    cases ht
  intro n
  induction n with
  | zero => intro i tmp t h1 h2; omega
  | succ n ih =>
    intro i tmp t h1 h2
    by_cases hi : i < cfg.maxNodes
    · simp only [emplaceNodes, getQpSize, hi, if_true, bind_eq_bind, bind_some]
      cases emplaceNode rm i tmp (rm.nodeList i).length 0 t with
      | none => rfl
      | some t' => exact ih (i + 1) _ t' (by omega) (by omega)
    · simp [emplaceNodes, getQpSize, hi]

section
variable (cfg : SmartConfig) (haff : cfg.uuarAffinityEnabled = false)
  (htotal : 2 < cfg.totalUuars) (hpriv : cfg.privateUuars < cfg.totalUuars) (f : Fleet)
include haff htotal hpriv

/-- With at most `max_nodes` clients the table holds the keys at the queue pairs' positions. -/
theorem qpnTable_built (hmax : f.clients.length ≤ cfg.maxNodes) :
    ∃ rm table, listen cfg .empty 0 (f.clients.map Client.message) = some rm ∧
      qpnTable cfg rm f.clients.length = some table ∧
      rm.resource.peers = (cellsFrom 0 f.clients).map (fun x => some ⟨x.2.1.gid, x.2.2⟩) ∧
      ∀ k, table.lookup k = (storedKeys 0 f.clients).zipIdx.lookup k := by
  obtain ⟨rm, hrm, hp, -, hs⟩ := listen_fresh haff htotal hpriv (f.clients.map Client.message) 0
    .empty ⟨fun _ => rfl, by simp [ResourceManager.empty, Resource.empty]; omega⟩
    (fun _ _ => rfl) (by simpa using hmax)
  have hp' : rm.resource.peers = connected (f.clients.map Client.message) := by
    simpa [ResourceManager.empty, Resource.empty, Resource.peers] using hp
  obtain ⟨table, ht, hl⟩ := emplaceNodes_lookup [] f.clients 0 0 []
    (by simpa using hp') rfl (by simpa using hmax)
    (fun a c h => by simpa [Client.message] using hs a c.message (by simp [h]))
  exact ⟨rm, table, hrm, ht, hp'.trans (connected_eq 0 _), by simpa using hl⟩

end

/-- Distinct client queue pairs ask under distinct keys. -/
def Fleet.KeysDistinct (f : Fleet) : Prop :=
  ∀ c ∈ f.clients, ∀ q ∈ c.qpNums, ∀ c' ∈ f.clients, ∀ q' ∈ c'.qpNums,
    c.key q = c'.key q' → c.gid = c'.gid ∧ q = q'

/-- Every client's configured id is the node id that the listener gave it. -/
def Fleet.IdsInAcceptOrder (f : Fleet) : Prop :=
  ∀ (a : ℕ) (c : Client), f.clients[a]? = some c → c.machineId = a

section
variable {f : Fleet} {g t q : ℕ}

theorem cell_eq_of_peer {y : ℕ × Client × ℕ} (hx : (cellsFrom 0 f.clients)[g]? = some x)
    (hy : (cellsFrom 0 f.clients)[t]? = some y) (hgid : y.2.1.gid = x.2.1.gid)
    (hq : y.2.2 = x.2.2) : t = g := by
  have hn := peers_nodup (i := 0) f.gids fun c hc => (f.qpns c hc).1
  refine (List.getElem?_inj ?_ hn).mp ?_
  · simpa using (List.getElem?_eq_some_iff.mp hy).1
  · simp [hx, hy, hgid, hq]

theorem idsInAcceptOrder_of_lookup
    (h : ∀ (g : ℕ) (x : ℕ × Client × ℕ), (cellsFrom 0 f.clients)[g]? = some x →
      (storedKeys 0 f.clients)[g]? = some (x.2.1.key x.2.2)) : f.IdsInAcceptOrder := by
  intro a c hc
  obtain ⟨q, hq⟩ := exists_mem_of_ne_nil _ (f.nonempty c (mem_of_getElem? hc))
  have hm : (a, c, q) ∈ cellsFrom 0 f.clients := mem_cellsFrom.mpr ⟨by simp, by simpa using hc, hq⟩
  obtain ⟨g, hg⟩ := List.getElem?_of_mem hm
  have hk := h g _ hg
  rw [storedKeys_eq, List.getElem?_map, hg] at hk
  simp only [map_some, some.injEq, Client.key] at hk
  exact (Nat.eq_of_mul_eq_mul_right (by decide) (Nat.add_left_cancel hk)).symm

theorem storedKey_eq_key (hid : f.IdsInAcceptOrder) (hx : (cellsFrom 0 f.clients)[g]? = some x) :
    (storedKeys 0 f.clients)[g]? = some (x.2.1.key x.2.2) := by
  have hc := (mem_cellsFrom.mp (mem_of_getElem? hx)).2.1
  have hacc := hid x.1 x.2.1 (by simpa using hc)
  rw [storedKeys_eq, List.getElem?_map, hx, map_some, Client.key, hacc]

theorem exists_cell {c : Client} (hc : c ∈ f.clients) (hq : q ∈ c.qpNums) :
    ∃ a g : ℕ, (cellsFrom 0 f.clients)[g]? = some (a, c, q) := by
  obtain ⟨a, ha⟩ := List.getElem?_of_mem hc
  obtain ⟨g, hg⟩ := List.getElem?_of_mem
    (mem_cellsFrom.mpr ⟨Nat.zero_le a, by simpa using ha, hq⟩ : (a, c, q) ∈ cellsFrom 0 f.clients)
  exact ⟨a, g, hg⟩

theorem storedKeys_nodup_iff (hid : f.IdsInAcceptOrder) :
    (storedKeys 0 f.clients).Nodup ↔ f.KeysDistinct := by
  constructor
  · intro hn c hc q hq c' hc' q' hq' hk
    obtain ⟨a, g, hg⟩ := exists_cell hc hq
    obtain ⟨a', g', hg'⟩ := exists_cell hc' hq'
    have h1 := storedKey_eq_key hid hg
    have h2 := storedKey_eq_key hid hg'
    have hgg : g = g' := (List.getElem?_inj (List.getElem?_eq_some_iff.mp h1).1 hn).mp
      (by rw [h1, h2, hk])
    subst hgg
    have := some.inj (hg.symm.trans hg')
    simp only [Prod.mk.injEq] at this
    exact ⟨by rw [this.2.1], this.2.2⟩
  · intro hd
    rw [nodup_iff_getElem?_ne_getElem?]
    intro g g' hlt hg' he
    have hlen : (storedKeys 0 f.clients).length = (cellsFrom 0 f.clients).length := by
      simp [storedKeys_eq]
    have hx := List.getElem?_eq_getElem (l := cellsFrom 0 f.clients) (i := g) (by omega)
    have hx' := List.getElem?_eq_getElem (l := cellsFrom 0 f.clients) (i := g') (by omega)
    rw [storedKey_eq_key hid hx, storedKey_eq_key hid hx', some.injEq] at he
    have hm := mem_cellsFrom.mp (mem_of_getElem? hx)
    have hm' := mem_cellsFrom.mp (mem_of_getElem? hx')
    obtain ⟨hgid, hq⟩ := hd _ (mem_of_getElem? hm.2.1) _ hm.2.2 _
      (mem_of_getElem? hm'.2.1) _ hm'.2.2 he
    have := cell_eq_of_peer hx' hx hgid hq
    omega

theorem cell_of_peer {rm : ResourceManager} {gid : ℕ}
    (hp : rm.resource.peers = (cellsFrom 0 f.clients).map fun x => some ⟨x.2.1.gid, x.2.2⟩)
    (h : rm.resource.peers[t]? = some (some ⟨gid, q⟩)) :
    ∃ y, (cellsFrom 0 f.clients)[t]? = some y ∧ y.2.1.gid = gid ∧ y.2.2 = q := by
  rw [hp, List.getElem?_map] at h
  obtain ⟨y, hy, he⟩ := map_eq_some_iff.mp h
  simp only [some.injEq, Peer.mk.injEq] at he
  exact ⟨y, hy, he⟩

namespace RepliesRouted

section
variable (h : RepliesRouted smartConfig f)
include h

theorem length_le : f.clients.length ≤ smartConfig.maxNodes := by
  by_contra hmax
  exact qpnTable_overflow smartConfig f (by omega) h

theorem lookup_self (hx : (cellsFrom 0 f.clients)[g]? = some x) :
    (storedKeys 0 f.clients).zipIdx.lookup (x.2.1.key x.2.2) = some g := by
  obtain ⟨rm, table, hrm, ht, hp, hl⟩ :=
    qpnTable_built smartConfig rfl (by decide) (by decide) f h.length_le
  obtain ⟨rm', table', hrm', ht', hall⟩ := h
  obtain rfl : rm = rm' := some.inj (hrm.symm.trans hrm')
  obtain rfl : table = table' := some.inj (ht.symm.trans ht')
  have hm := mem_cellsFrom.mp (mem_of_getElem? hx)
  obtain ⟨t, hlook, hpt⟩ := hall _ (mem_of_getElem? hm.2.1) _ hm.2.2
  obtain ⟨y, hy, hgid, hq⟩ := cell_of_peer hp hpt
  obtain rfl := cell_eq_of_peer hx hy hgid hq
  rw [← hl, hlook]

theorem idsInAcceptOrder : f.IdsInAcceptOrder :=
  idsInAcceptOrder_of_lookup fun _ _ hx => (lookup_zipIdx_some (h.lookup_self hx)).2

theorem keysDistinct : f.KeysDistinct := by
  have hid := h.idsInAcceptOrder
  refine (storedKeys_nodup_iff hid).mp (nodup_of_lookup_zipIdx fun g k hk => ?_)
  have hlt : g < (cellsFrom 0 f.clients).length := by
    simpa [storedKeys_eq] using (List.getElem?_eq_some_iff.mp hk).1
  have hx := List.getElem?_eq_getElem hlt
  obtain rfl := some.inj (hk.symm.trans (storedKey_eq_key hid hx))
  exact h.lookup_self hx

end

end RepliesRouted

theorem repliesRouted_of (hmax : f.clients.length ≤ smartConfig.maxNodes)
    (hid : f.IdsInAcceptOrder) (hd : f.KeysDistinct) : RepliesRouted smartConfig f := by
  obtain ⟨rm, table, hrm, ht, hp, hl⟩ :=
    qpnTable_built smartConfig rfl (by decide) (by decide) f hmax
  refine ⟨rm, table, hrm, ht, fun c hc q hq => ?_⟩
  obtain ⟨a, g, hg⟩ := exists_cell hc hq
  refine ⟨g, ?_, by simp [hp, hg]⟩
  rw [hl]
  exact lookup_zipIdx_of_nodup ((storedKeys_nodup_iff hid).mpr hd) (storedKey_eq_key hid hg)

end

/-- Replies reach their senders exactly when accepts follow the ids and no keys collide. -/
theorem repliesRouted_iff (f : Fleet) : RepliesRouted smartConfig f ↔
      f.clients.length ≤ smartConfig.maxNodes ∧ f.IdsInAcceptOrder ∧ f.KeysDistinct :=
  ⟨fun h => ⟨h.length_le, h.idsInAcceptOrder, h.keysDistinct⟩,
    fun ⟨hmax, hid, hd⟩ => repliesRouted_of hmax hid hd⟩

def twoMachines (q r : ℕ) (hq : q < 2 ^ 24) (hr : r < 2 ^ 24) : Fleet where
  clients := [⟨1, 0, [q]⟩, ⟨2, 1, [r]⟩]
  gids := by simp
  machineIds := .refl _
  nonempty := by simp
  qpns := by simpa using ⟨hq, hr⟩

theorem repliesRouted_twoMachines :
    RepliesRouted smartConfig (twoMachines 70 71 (by decide) (by decide)) := by
  refine (repliesRouted_iff _).mpr ⟨by decide, fun a c h => ?_, ?_⟩
  · match a with
    | 0 => cases h; rfl
    | 1 => cases h; rfl
    | _ + 2 => cases h
  · simp [Fleet.KeysDistinct, twoMachines, Client.key, qpOff]

/-- QP number 5 of machine 1 and QP number 100005 of machine 0 share a key. -/
theorem not_repliesRouted_twoMachines :
    ¬ RepliesRouted smartConfig (twoMachines 100005 5 (by decide) (by decide)) := by
  intro h
  have := h.keysDistinct ⟨1, 0, [100005]⟩ (by simp [twoMachines]) 100005 (by simp)
    ⟨2, 1, [5]⟩ (by simp [twoMachines]) 5 (by simp) (by simp [Client.key, qpOff])
  simp at this

end Fusa.Server

import Fusa.Driver.TagMatching
import Fusa.Lib.Bump

/-! The device of tag matching: what the WQEs of a queue leave, and what a consumption in front of
them changes. -/
namespace Fusa.Driver.Tm.Device
open Function List
variable {d d' : Device} {w : Wqe} {queue : List Wqe} {i j : ℕ} {r : UInt64} {f : ℕ → UInt64}

section report
variable {op : ListOp} {tag : Option ℕ} {gone : Option UInt64}

@[simp] theorem tail_report : (d.report w op tag gone).tail = d.tail := by
  unfold report
  split <;> rfl

@[simp] theorem listed_report : (d.report w op tag gone).listed = d.listed := by
  unfold report
  split <;> rfl

@[simp] theorem hits_report : (d.report w op tag gone).hits = d.hits := by
  unfold report
  split <;> rfl

@[simp] theorem done_report : (d.report w op tag gone).done =
    d.done ++ if w.signaled then [⟨op, tag, gone, w.wrId, w.wqeHead⟩] else [] := by
  unfold report
  split
  · rfl
  · exact (append_nil _).symm

end report

theorem flush_concat : d.flush (queue ++ [w]) = (d.flush queue).execOne w := by
  rw [flush, foldl_append]
  rfl

theorem flush_comm (g : Device → Device) (hg : ∀ d w, (g d).execOne w = g (d.execOne w)) :
    (g d).flush queue = g (d.flush queue) := by
  induction queue generalizing d with
  | nil => rfl
  | cons w queue ih =>
    change ((g d).execOne w).flush queue = _
    rw [hg]
    exact ih

theorem execOne_hits (hits : List (ℕ × UInt64)) :
    execOne { d with hits } w = { d.execOne w with hits } := by
  obtain ⟨op, signaled, wrId, wqeHead⟩ := w
  cases op <;> cases signaled <;> rfl

theorem flush_hits (hits : List (ℕ × UInt64)) :
    flush { d with hits } queue = { d.flush queue with hits } :=
  flush_comm (fun d => { d with hits }) fun _ _ => execOne_hits hits

theorem hits_flush : (d.flush queue).hits = d.hits := by
  have h : d.flush queue = { d.flush queue with hits := d.hits } := flush_hits d.hits
  rw [h]

theorem execOne_cons (c : OpCqe) : execOne { d with done := c :: d.done } w =
      { d.execOne w with done := c :: (d.execOne w).done } := by
  obtain ⟨op, signaled, wrId, wqeHead⟩ := w
  cases op <;> cases signaled <;> rfl

theorem flush_cons (c : OpCqe) : flush { d with done := c :: d.done } queue =
      { d.flush queue with done := c :: (d.flush queue).done } :=
  flush_comm (fun d => { d with done := c :: d.done }) fun _ _ => execOne_cons c

theorem map_eraseP_named (l : List (ℕ × UInt64)) :
    (l.eraseP (named i)).map Prod.fst = (l.map Prod.fst).erase i := by
  induction l with
  | nil => rfl
  | cons e l ih =>
    by_cases he : e.1 = i
    · rw [eraseP_cons_of_pos (by simpa [named] using he), map_cons, he, erase_cons_head]
    · rw [eraseP_cons_of_neg (by simpa [named] using he), map_cons, map_cons,
        erase_cons_tail (by simpa using he), ih]

variable {l : List (ℕ × UInt64)} {c : OpCqe}

theorem find_named_eq_none (h : i ∉ l.map Prod.fst) : l.find? (named i) = none := by
  rw [List.find?_eq_none]
  intro e he hi
  exact h (mem_map.mpr ⟨e, he, of_decide_eq_true hi⟩)

theorem find_named_isSome (h : i ∈ l.map Prod.fst) : (l.find? (named i)).isSome := by
  obtain ⟨e, he, hi⟩ := mem_map.mp h
  exact List.find?_isSome.mpr ⟨e, he, by simpa [named] using hi⟩

theorem count_append {index : ℕ} (h : w.op = .append index r) : (d.execOne w).count j =
      d.count j + if d.tail = j then (if w.signaled then 2 else 1) else 0 := by
  simp only [execOne, h, count, listed_report, hits_report, done_report]
  cases w.signaled <;> by_cases hj : d.tail = j <;>
    simp [OpCqe.count, hj] <;> omega

theorem count_remove (h : w.op = .remove i) (hs : w.signaled = true) :
    (d.execOne w).count j = d.count j + if i = j then 1 else 0 := by
  simp only [execOne, h, count, listed_report, hits_report, done_report, hs, map_eraseP_named]
  by_cases hi : i ∈ d.listed.map Prod.fst
  · have hsome := find_named_isSome hi
    have hpos := count_pos_iff.mpr hi
    by_cases hj : i = j
    · subst hj
      simp [OpCqe.count, hsome]
      omega
    · simp [OpCqe.count, hj, count_erase_of_ne (Ne.symm hj)]
  · rw [erase_of_not_mem hi, find_named_eq_none hi]
    by_cases hj : i = j
    · simp [OpCqe.count, hj]
      omega
    · simp [OpCqe.count, hj]

theorem count_remove_silent (h : w.op = .remove i) (hs : w.signaled = false)
    (hi : i ∈ d.listed.map Prod.fst) :
    (d.execOne w).count j = d.count j - if i = j then 1 else 0 := by
  have hpos := count_pos_iff.mpr hi
  simp only [execOne, h, count, listed_report, hits_report, done_report, hs, map_eraseP_named]
  by_cases hj : i = j
  · subst hj
    simp
    omega
  · simp [hj, count_erase_of_ne (Ne.symm hj)]

theorem count_nop (h : w.op = .nop) : (d.execOne w).count j = d.count j := by
  simp only [execOne, h, count, listed_report, hits_report, done_report]
  cases w.signaled <;> simp [OpCqe.count]

theorem count_eraseHit {e : ℕ × UInt64} {hits : List (ℕ × UInt64)} (h : (e :: hits).Perm d.hits) :
    d.count j = count { d with hits } j + if e.1 = j then 1 else 0 := by
  have hcount := (h.map Prod.fst).count_eq j
  rw [map_cons, count_cons] at hcount
  simp only [beq_iff_eq] at hcount
  simp only [count]
  omega

theorem count_cons (c : OpCqe) :
    count { d with done := c :: d.done } j = d.count j + c.count j := by
  simp only [count, map_cons, sum_cons]
  omega

theorem tag_ne_of_count (h : d.count i = 0) (hc : c ∈ d.done) : c.tag ≠ some i := by
  intro ht
  have hle : c.count i ≤ (d.done.map (OpCqe.count i)).sum := Cover.le_sum_of_mem hc
  have hpos : 0 < c.count i := by
    rw [OpCqe.count, if_pos ht]
    split <;> omega
  unfold count at h
  omega

/-- Every tag has the `recv_wr_id` that the driver keeps for its entry. -/
structure Names (f : ℕ → UInt64) (d : Device) : Prop where
  listed : ∀ e ∈ d.listed, e.2 = f e.1
  hits : ∀ e ∈ d.hits, e.2 = f e.1
  gone : ∀ c ∈ d.done, ∀ r, c.gone = some r → c.op = .remove ∧ ∀ i, c.tag = some i → r = f i

theorem notMem_of_count (h : d.count i = 0) :
    i ∉ d.listed.map Prod.fst ∧ i ∉ d.hits.map Prod.fst := by
  rw [← count_eq_zero, ← count_eq_zero]
  unfold count at h
  omega

theorem Names.update (h : Names f d) (hi : d.count i = 0) : Names (update f i r) d := by
  obtain ⟨hl, hh⟩ := notMem_of_count hi
  refine ⟨fun e he => ?_, fun e he => ?_, fun c hc s hg => ?_⟩
  · have hne : e.1 ≠ i := fun heq => hl (mem_map.mpr ⟨e, he, heq⟩)
    rw [update_of_ne hne]
    exact h.listed e he
  · have hne : e.1 ≠ i := fun heq => hh (mem_map.mpr ⟨e, he, heq⟩)
    rw [update_of_ne hne]
    exact h.hits e he
  · obtain ⟨hop, hname⟩ := h.gone c hc s hg
    refine ⟨hop, fun j ht => ?_⟩
    have hne : j ≠ i := by
      rintro rfl
      exact tag_ne_of_count hi hc ht
    rw [update_of_ne hne]
    exact hname j ht

theorem Names.report {op : ListOp} {tag : Option ℕ} {gone : Option UInt64} (h : Names f d)
    (hgone : ∀ s, gone = some s → op = .remove ∧ ∀ i, tag = some i → s = f i) :
    Names f (d.report w op tag gone) := by
  refine ⟨fun e he => ?_, fun e he => ?_, fun c hc s hg => ?_⟩
  · rw [listed_report] at he
    exact h.listed e he
  · rw [hits_report] at he
    exact h.hits e he
  · rw [done_report, mem_append] at hc
    rcases hc with hc | hc
    · exact h.gone c hc s hg
    · split at hc
      · rw [mem_singleton.mp hc] at hg ⊢
        exact hgone s hg
      · cases hc

/-- A WQE keeps the names, where an append brings that of its entry. -/
theorem Names.execOne (h : Names f d) (ha : ∀ index r, w.op = .append index r → r = f d.tail) :
    Names f (d.execOne w) := by
  unfold Device.execOne
  cases hw : w.op with
  | append index r =>
    refine Names.report ⟨fun e he => ?_, h.hits, h.gone⟩ fun s hs => by cases hs
    rcases mem_append.mp he with he | he
    · exact h.listed e he
    · rw [mem_singleton.mp he]
      exact ha index r hw
  | remove index =>
    refine Names.report ⟨fun e he => h.listed e (mem_of_mem_eraseP he), h.hits, h.gone⟩
      fun s hs => ?_
    obtain ⟨e, he, rfl⟩ := Option.map_eq_some_iff.mp hs
    refine ⟨rfl, fun j ht => ?_⟩
    cases ht
    have hnamed : named index e = true := List.find?_some he
    have hi : e.1 = index := of_decide_eq_true hnamed
    rw [← hi]
    exact h.listed e (mem_of_find?_eq_some he)
  | nop => exact h.report fun s hs => by cases hs

/-- No entry is twice in the matching list, before and behind each WQE. -/
def Clean : Device → List Wqe → Prop
  | d, [] => (d.listed.map Prod.fst).Nodup
  | d, w :: queue => (d.listed.map Prod.fst).Nodup ∧ Clean (d.execOne w) queue

theorem Clean.flush (h : Clean d queue) : ((d.flush queue).listed.map Prod.fst).Nodup := by
  induction queue generalizing d with
  | nil => exact h
  | cons w queue ih => exact ih h.2

theorem Clean.concat (h : Clean d queue)
    (hw : (((d.flush queue).execOne w).listed.map Prod.fst).Nodup) : Clean d (queue ++ [w]) := by
  induction queue generalizing d with
  | nil => exact ⟨h, hw⟩
  | cons w' queue ih => exact ⟨h.1, ih h.2 hw⟩

theorem Clean.hits (h : Clean d queue) (hits : List (ℕ × UInt64)) :
    Clean { d with hits } queue := by
  induction queue generalizing d with
  | nil => exact h
  | cons w queue ih =>
    refine ⟨h.1, ?_⟩
    rw [execOne_hits]
    exact ih h.2

theorem Clean.of_cons (h : Clean { d with done := c :: d.done } queue) : Clean d queue := by
  induction queue generalizing d with
  | nil => exact h
  | cons w queue ih =>
    refine ⟨h.1, ih ?_⟩
    rw [← execOne_cons]
    exact h.2

theorem nodup_execOne (h : (d.listed.map Prod.fst).Nodup)
    (ha : ∀ index r, w.op = .append index r → d.count d.tail = 0) :
    ((d.execOne w).listed.map Prod.fst).Nodup := by
  unfold execOne
  cases hw : w.op with
  | append index r =>
    have hout := (notMem_of_count (ha index r hw)).1
    rw [listed_report]
    simp only [map_append, map_singleton]
    refine nodup_append.mpr ⟨h, nodup_singleton _, ?_⟩
    intro x hx y hy he
    rw [mem_singleton] at hy
    exact hout (hy ▸ he ▸ hx)
  | remove index =>
    rw [listed_report]
    exact h.sublist (eraseP_sublist.map _)
  | nop =>
    rwa [listed_report]

theorem eraseP_middle {α : Type*} {p : α → Bool} {x : α} (hx : p x = false) (l₁ l₂ : List α) :
    ∃ l₁' l₂', (l₁ ++ x :: l₂).eraseP p = l₁' ++ x :: l₂' ∧ (l₁ ++ l₂).eraseP p = l₁' ++ l₂' := by
  by_cases h : ∃ a ∈ l₁, p a = true
  · obtain ⟨a, ha, hp⟩ := h
    exact ⟨l₁.eraseP p, l₂, eraseP_append_left hp _ ha, eraseP_append_left hp _ ha⟩
  · have hnone : ∀ a ∈ l₁, ¬ p a = true := fun a ha hp => h ⟨a, ha, hp⟩
    refine ⟨l₁, l₂.eraseP p, ?_, eraseP_append_right _ hnone⟩
    rw [eraseP_append_right _ hnone, eraseP_cons_of_neg (by simp [hx])]

/-- `d'` has consumed the tag `(i, r)`, listed in `d` or removed with a completion to come. -/
structure Consumed (i : ℕ) (r : UInt64) (d d' : Device) : Prop where
  tail : d'.tail = d.tail
  hits : d'.hits = d.hits ++ [(i, r)]
  cases : (∃ l₁ l₂, d.listed = l₁ ++ (i, r) :: l₂ ∧ d'.listed = l₁ ++ l₂ ∧ d'.done = d.done) ∨
    (d'.listed = d.listed ∧ ∃ c₁ c c₂, d.done = c₁ ++ c :: c₂ ∧ c.tag = some i ∧
      c.gone = some r ∧ d'.done = c₁ ++ { c with gone := none } :: c₂)

theorem Consumed.remove_self {l₁ l₂ : List (ℕ × UInt64)} (hl : d.listed = l₁ ++ (i, r) :: l₂)
    (hl' : d'.listed = l₁ ++ l₂) (hdone : d'.done = d.done) (hd : (d.listed.map Prod.fst).Nodup)
    (hw : w.op = .remove i) (hs : w.signaled = true) :
    (d'.execOne w).listed = (d.execOne w).listed ∧
      (d.execOne w).done = d.done ++ [⟨.remove, some i, some r, w.wrId, w.wqeHead⟩] ∧
      (d'.execOne w).done = d.done ++ [⟨.remove, some i, none, w.wrId, w.wqeHead⟩] := by
  rw [hl, map_append, map_cons] at hd
  have hmid := nodup_middle.mp hd
  rw [nodup_cons, mem_append, not_or] at hmid
  obtain ⟨hnot₁, hnot₂⟩ := hmid.1
  have hout : i ∉ (l₁ ++ l₂).map Prod.fst := by
    rw [map_append, mem_append, not_or]
    exact hmid.1
  have hnone : ∀ e ∈ l₁, ¬ named i e = true := by
    intro e he hn
    exact hnot₁ (mem_map.mpr ⟨e, he, of_decide_eq_true hn⟩)
  simp only [Device.execOne, hw, listed_report, done_report, hs, if_true]
  refine ⟨?_, ?_, ?_⟩
  · have herase : (l₁ ++ (i, r) :: l₂).eraseP (named i) = l₁ ++ l₂ := by
      rw [eraseP_append_right _ hnone, eraseP_cons_of_pos (by simp [named])]
    rw [hl, hl', herase]
    refine eraseP_of_forall_not fun e he hn => hout ?_
    exact mem_map.mpr ⟨e, he, of_decide_eq_true hn⟩
  · rw [hl, List.find?_append, find_named_eq_none hnot₁]
    simp [named]
  · rw [hl', hdone, find_named_eq_none hout]
    rfl

section
variable (h : Consumed i r d d')
include h

/-- Executing a WQE keeps that up, unless it is a removal of the tag without completion. -/
theorem Consumed.execOne (hd : (d.listed.map Prod.fst).Nodup)
    (hw : w.op = .remove i → w.signaled = true) : Consumed i r (d.execOne w) (d'.execOne w) := by
  obtain ⟨htail, hhits, hcases⟩ := h
  have hhits' : (d'.execOne w).hits = (d.execOne w).hits ++ [(i, r)] := by
    unfold Device.execOne
    cases w.op <;> simp only [hits_report, hhits]
  have htail' : (d'.execOne w).tail = (d.execOne w).tail := by
    unfold Device.execOne
    cases w.op <;> simp only [tail_report, htail]
  refine ⟨htail', hhits', ?_⟩
  rcases hcases with ⟨l₁, l₂, hl, hl', hdone⟩ | ⟨hl, c₁, c, c₂, hdone, ht, hg, hdone'⟩
  · cases hop : w.op with
    | append index s =>
      left
      simp only [Device.execOne, hop, listed_report, done_report, htail, hdone, and_true]
      exact ⟨l₁, l₂ ++ [(d.tail, s)], by simp [hl], by simp [hl']⟩
    | remove index =>
      by_cases hi : index = i
      · subst hi
        right
        obtain ⟨hlist, hd₁, hd₂⟩ := remove_self hl hl' hdone hd hop (hw hop)
        exact ⟨hlist, d.done, _, [], hd₁, rfl, rfl, hd₂⟩
      · left
        have hne : named index (i, r) = false := by simp [named, Ne.symm hi]
        obtain ⟨l₁', l₂', he, he'⟩ := eraseP_middle hne l₁ l₂
        have hfind : d'.listed.find? (named index) = d.listed.find? (named index) := by
          rw [hl, hl', List.find?_append, List.find?_append, List.find?_cons_of_neg (by simp [hne])]
        simp only [Device.execOne, hop, listed_report, done_report, hfind, hdone, and_true]
        exact ⟨l₁', l₂', by rw [hl, he], by rw [hl', he']⟩
    | nop =>
      left
      simp only [Device.execOne, hop, listed_report, done_report, hdone, and_true]
      exact ⟨l₁, l₂, hl, hl'⟩
  · right
    have hadd : ∃ cs, (d.execOne w).done = d.done ++ cs ∧ (d'.execOne w).done = d'.done ++ cs := by
      unfold Device.execOne
      cases w.op <;> simp only [done_report, hl, htail] <;> exact ⟨_, rfl, rfl⟩
    have hlist : (d'.execOne w).listed = (d.execOne w).listed := by
      unfold Device.execOne
      cases w.op <;> simp only [listed_report, hl, htail]
    obtain ⟨cs, hcs, hcs'⟩ := hadd
    refine ⟨hlist, c₁, c, c₂ ++ cs, ?_, ht, hg, ?_⟩
    · rw [hcs, hdone, append_assoc, cons_append]
    · rw [hcs', hdone', append_assoc, cons_append]

theorem Consumed.nodup (hd : (d.listed.map Prod.fst).Nodup) : (d'.listed.map Prod.fst).Nodup := by
  rcases h.cases with ⟨l₁, l₂, hl, hl', -⟩ | ⟨hl, -⟩
  · rw [hl'] at *
    rw [hl] at hd
    refine hd.sublist (List.Sublist.map _ ?_)
    exact List.Sublist.append_left (sublist_cons_self _ _) l₁
  · rwa [hl]

theorem Consumed.flush (hd : Clean d queue) (hq : ∀ w ∈ queue, w.op = .remove i → w.signaled = true)
    : Consumed i r (d.flush queue) (d'.flush queue) ∧ Clean d' queue := by
  induction queue generalizing d d' with
  | nil => exact ⟨h, h.nodup hd⟩
  | cons w queue ih =>
    have hstep := h.execOne hd.1 (hq w mem_cons_self)
    obtain ⟨hf, hc⟩ := ih hstep hd.2 fun w' hw' => hq w' (mem_cons_of_mem w hw')
    exact ⟨hf, h.nodup hd.1, hc⟩

theorem Consumed.count : d'.count j = d.count j := by
  unfold Device.count
  rw [h.hits]
  rcases h.cases with ⟨l₁, l₂, hl, hl', hdone⟩ | ⟨hl, c₁, c, c₂, hdone, ht, hg, hdone'⟩
  · rw [hl, hl', hdone]
    simp only [map_append, map_cons, List.count_append, List.count_cons, map_nil, List.count_nil]
    omega
  · rw [hl, hdone, hdone']
    by_cases hj : i = j
    · simp [OpCqe.count, ht, hg, hj]
      omega
    · simp [OpCqe.count, ht, hj]

theorem Consumed.names (hn : Names f d) : Names f d' := by
  rcases h.cases with ⟨l₁, l₂, hl, hl', hdone⟩ | ⟨hl, c₁, c, c₂, hdone, ht, hg, hdone'⟩
  · have hsub : ∀ e ∈ d'.listed, e ∈ d.listed := by
      intro e he
      rw [hl', mem_append] at he
      rw [hl, mem_append, mem_cons]
      tauto
    refine ⟨fun e he => hn.listed e (hsub e he), fun e he => ?_, fun c hc => ?_⟩
    · rw [h.hits, mem_append, mem_singleton] at he
      rcases he with he | rfl
      · exact hn.hits e he
      · exact hn.listed (i, r) (by rw [hl]; simp)
    · rw [hdone] at hc
      exact hn.gone c hc
  · refine ⟨fun e he => hn.listed e (hl ▸ he), fun e he => ?_, fun c' hc' s hgs => ?_⟩
    · rw [h.hits, mem_append, mem_singleton] at he
      rcases he with he | rfl
      · exact hn.hits e he
      · exact (hn.gone c (by rw [hdone]; simp) r hg).2 i ht
    · rw [hdone', mem_append, mem_cons] at hc'
      have hmem : c' ∈ d.done := by
        rw [hdone, mem_append, mem_cons]
        rcases hc' with hc' | rfl | hc'
        · exact .inl hc'
        · cases hgs
        · exact .inr (.inr hc')
      exact hn.gone c' hmem s hgs

end

theorem Consumed.map_done {β : Type*} {g : OpCqe → β} (hg : ∀ c, g { c with gone := none } = g c)
    (h : Consumed i r d d') : d'.done.map g = d.done.map g := by
  rcases h.cases with ⟨l₁, l₂, -, -, hdone⟩ | ⟨-, c₁, c, c₂, hdone, -, -, hdone'⟩
  · rw [hdone]
  · rw [hdone, hdone', map_append, map_append, map_cons, map_cons, hg]

end Fusa.Driver.Tm.Device

/-
The least-recently-used collector (`common/lru_collector.{h,cc}`).

The queue is a `std::list`, the index maps an id to an iterator into
it. An iterator designates a node of the list, not a value, so the
nodes carry an identity here: `pushFront` takes a fresh one. What
`update` hands to the `remover` callback is returned next to the new
collector; the owner of the callback performs the removal.

`none` is undefined behaviour: `back()` of an empty list (only a
collector of capacity zero gets there), or `erase` of an iterator that
designates no node (excluded by `Coherent`).

# The refinement

`Coherent` says that list and index are in step. Under it `update` is
`Recency.touch` on the ids of the queue and calls the remover exactly
on `Recency.evicted` (`update_spec`).
-/
import Distfs.Common.Basic
import Distfs.Lib.Recency

namespace Distfs

/-- `LruCollector`, without its callback. `nextNode` is the identity
of the next list node. -/
structure LruCollector where
  size : Nat
  queue : List (Nat × UInt32)
  iterators : UInt32 → Option Nat
  nextNode : Nat

namespace LruCollector

/-- The collector its constructor builds. -/
def new (size : Nat) : LruCollector :=
  { size := size, queue := [], iterators := fun _ => none, nextNode := 0 }

/-- `queue.push_front(id); iterators[id] = queue.begin();` -/
def pushFront (c : LruCollector) (id : UInt32) : LruCollector :=
  { c with
    queue := (c.nextNode, id) :: c.queue
    iterators := fun i => if i = id then some c.nextNode else c.iterators i
    nextNode := c.nextNode + 1 }

/-- `update`: the new collector and the id handed to the remover. -/
def update (c : LruCollector) (id : UInt32) :
    Option (LruCollector × Option UInt32) :=
  match c.iterators id with
  | none =>
      if c.size ≤ c.queue.length then
        match c.queue.getLast? with
        | none => none
        | some (_, last) =>
            some (({ c with
              queue := c.queue.dropLast
              iterators := fun i =>
                if i = last then none else c.iterators i }).pushFront id,
              some last)
      else some (c.pushFront id, none)
  | some node =>
      if node ∈ c.queue.map Prod.fst then
        some (({ c with
          queue := c.queue.filter fun p => p.1 ≠ node }).pushFront id, none)
      else none

/-- `remove`. -/
def remove (c : LruCollector) (id : UInt32) : LruCollector :=
  { c with iterators := fun i => if i = id then none else c.iterators i }

/-- The tracked ids, most recently used first. -/
def ids (c : LruCollector) : List UInt32 := c.queue.map Prod.snd

/-- List and index in step: nodes are distinct and older than the next
one, and the index leads from an id to its node and nowhere else. -/
structure Coherent (c : LruCollector) : Prop where
  nodes : (c.queue.map Prod.fst).Nodup
  fresh : ∀ p ∈ c.queue, p.1 < c.nextNode
  index : ∀ id node, c.iterators id = some node ↔ (node, id) ∈ c.queue

theorem coherent_new (size : Nat) : (new size).Coherent :=
  ⟨List.nodup_nil, by simp [new], by simp [new]⟩

variable {c c' : LruCollector} {id : UInt32}

theorem Coherent.node_inj (h : c.Coherent) {p q : Nat × UInt32}
    (hp : p ∈ c.queue) (hq : q ∈ c.queue) (heq : p.1 = q.1) : p = q :=
  List.inj_on_of_nodup_map h.nodes hp hq heq

theorem Coherent.id_inj (h : c.Coherent) {p q : Nat × UInt32}
    (hp : p ∈ c.queue) (hq : q ∈ c.queue) (heq : p.2 = q.2) : p = q := by
  have hp' := (h.index p.2 p.1).2 hp
  have hq' := (h.index q.2 q.1).2 hq
  rw [heq, hq'] at hp'
  exact Prod.ext (Option.some.inj hp').symm heq

theorem Coherent.nodup_ids (h : c.Coherent) : c.ids.Nodup :=
  h.nodes.of_map.map_on fun _ hp _ hq heq => h.id_inj hp hq heq

theorem Coherent.mem_ids_iff (h : c.Coherent) :
    id ∈ c.ids ↔ ∃ node, c.iterators id = some node := by
  simp only [ids, List.mem_map, Prod.exists, exists_eq_right, h.index]

/-- Dropping queue nodes together with their index entries, then
pushing an id that is no longer there, keeps list and index in step. -/
private theorem coherent_pushFront {q : List (Nat × UInt32)}
    {its : UInt32 → Option Nat} (h : c.Coherent) (hq : q.Sublist c.queue)
    (hid : ∀ p ∈ q, p.2 ≠ id)
    (hits : ∀ i node, i ≠ id → (its i = some node ↔ (node, i) ∈ q)) :
    (pushFront { c with queue := q, iterators := its } id).Coherent := by
  refine ⟨?_, ?_, ?_⟩
  · have hnodes : (q.map Prod.fst).Nodup := h.nodes.sublist (hq.map _)
    simp only [pushFront, List.map_cons, List.nodup_cons]
    refine ⟨fun hm => ?_, hnodes⟩
    obtain ⟨p, hp, hpn⟩ := List.mem_map.1 hm
    have := h.fresh p (hq.subset hp)
    omega
  · intro p hp
    simp only [pushFront, List.mem_cons] at hp ⊢
    rcases hp with rfl | hp
    · exact Nat.lt_succ_self _
    · exact Nat.lt_succ_of_lt (h.fresh p (hq.subset hp))
  · intro i node
    simp only [pushFront, List.mem_cons, Prod.mk.injEq]
    by_cases hi : i = id
    · subst hi
      simp only [if_pos, Option.some.injEq, and_true]
      refine ⟨fun h => Or.inl h.symm, ?_⟩
      rintro (h | h)
      · exact h.symm
      · exact absurd rfl (hid _ h)
    · simp only [hi, if_false, and_false, false_or]
      exact hits i node hi

/-- Erasing the node an index entry leads to erases the id. -/
private theorem ids_erase_node (h : c.Coherent) {node : Nat}
    (hnode : (node, id) ∈ c.queue) :
    (c.queue.filter fun p => p.1 ≠ node).map Prod.snd = c.ids.erase id := by
  have hfilter : (c.queue.filter fun p => p.1 ≠ node)
      = c.queue.filter fun p => p.2 ≠ id := by
    refine List.filter_congr fun p hp => ?_
    rw [decide_eq_decide, not_iff_not]
    constructor
    · intro heq
      rw [h.node_inj hp hnode heq]
    · intro heq
      rw [h.id_inj hp hnode heq]
  rw [hfilter, h.nodup_ids.erase_eq_filter, ids, List.filter_map]
  refine congrArg _ (List.filter_congr fun p _ => ?_)
  rw [Bool.eq_iff_iff]
  simp

/-- What one `update` does: it never meets undefined behaviour unless
it must take the back of an empty queue, it keeps list and index in
step, and on the ids it is `Recency.touch`, the remover receiving
`Recency.evicted`. -/
theorem update_spec (h : c.Coherent) (id : UInt32)
    (hpos : 0 < c.size ∨ c.ids ≠ []) :
    ∃ c', c.update id = some (c', Recency.evicted c.size c.ids id)
      ∧ c'.Coherent ∧ c'.size = c.size
      ∧ c'.ids = Recency.touch c.size c.ids id := by
  have hlen : c.ids.length = c.queue.length := by simp [ids]
  unfold update
  cases hit : c.iterators id with
  | some node =>
      have hmem : id ∈ c.ids := h.mem_ids_iff.2 ⟨node, hit⟩
      have hnode : (node, id) ∈ c.queue := (h.index id node).1 hit
      have hin : node ∈ c.queue.map Prod.fst :=
        List.mem_map.2 ⟨_, hnode, rfl⟩
      refine ⟨pushFront { c with
        queue := c.queue.filter fun p => p.1 ≠ node } id, ?_, ?_, rfl, ?_⟩
      · simp only [if_pos hin, Recency.evicted, if_pos hmem]
      · refine coherent_pushFront h List.filter_sublist ?_ ?_
        · intro p hp hpid
          obtain ⟨hp, hne⟩ := List.mem_filter.1 hp
          rw [h.id_inj hp hnode hpid] at hne
          simp at hne
        · intro i n hi
          rw [h.index, List.mem_filter]
          refine ⟨fun hm => ⟨hm, ?_⟩, fun hm => hm.1⟩
          rw [decide_eq_true_eq]
          rintro (rfl : n = node)
          exact hi (congrArg Prod.snd (h.node_inj hm hnode rfl))
      · rw [Recency.touch, if_pos hmem]
        show id :: _ = _
        rw [ids_erase_node h hnode]
  | none =>
      have hmem : id ∉ c.ids := by
        rw [h.mem_ids_iff, hit]
        simp
      have hne : ∀ p ∈ c.queue, p.2 ≠ id := fun p hp hpid =>
        hmem (hpid ▸ List.mem_map.2 ⟨p, hp, rfl⟩)
      by_cases hfull : c.size ≤ c.queue.length
      · have hnil : c.queue ≠ [] := by
          intro hnil
          rw [hnil, List.length_nil] at hfull
          rcases hpos with hpos | hids
          · omega
          · exact hids (by rw [ids, hnil, List.map_nil])
        obtain ⟨init, ⟨n, last⟩, hq⟩ :=
          (List.eq_nil_or_concat c.queue).resolve_left hnil
        rw [List.concat_eq_append] at hq
        have hlast : c.queue.getLast? = some (n, last) := by
          rw [hq, List.getLast?_concat]
        refine ⟨pushFront { c with
          queue := c.queue.dropLast
          iterators := fun i =>
            if i = last then none else c.iterators i } id, ?_, ?_, rfl, ?_⟩
        · have hev : Recency.evicted c.size c.ids id = some last := by
            rw [Recency.evicted, if_neg hmem, hlen, if_pos hfull, ids,
              List.getLast?_map, hlast]
            rfl
          simp only [if_pos hfull, hlast, hev]
        · refine coherent_pushFront h (List.dropLast_sublist _) ?_ ?_
          · exact fun p hp =>
              hne p ((List.dropLast_sublist _).subset hp)
          · intro i node _
            have hsub : (node, i) ∈ c.queue
                ↔ (node, i) ∈ init ∨ (node = n ∧ i = last) := by
              rw [hq]
              simp
            have hout : (node, last) ∉ init := by
              intro hm
              have hsame := h.id_inj (p := (node, last)) (q := (n, last))
                (by rw [hq]; simp [hm]) (by rw [hq]; simp) rfl
              have hnodes := h.nodes
              rw [hq, List.map_append, List.nodup_append] at hnodes
              refine hnodes.2.2 n ?_ n (by simp) rfl
              exact List.mem_map.2 ⟨_, hm, congrArg Prod.fst hsame⟩
            have hdrop : c.queue.dropLast = init := by
              rw [hq, List.dropLast_concat]
            show (if i = last then none else c.iterators i) = some node ↔ _
            rw [hdrop]
            by_cases hi : i = last
            · subst hi
              simp [hout]
            · rw [if_neg hi, h.index, hsub]
              simp [hi]
        · rw [Recency.touch, if_neg hmem, hlen, if_pos hfull]
          show id :: _ = _
          rw [List.map_dropLast]
          rfl
      · refine ⟨c.pushFront id, ?_, ?_, rfl, ?_⟩
        · simp only [if_neg hfull, Recency.evicted, if_neg hmem, hlen]
        · exact coherent_pushFront h (List.Sublist.refl _) hne
            fun i node _ => h.index i node
        · rw [Recency.touch, if_neg hmem, hlen, if_neg hfull]
          rfl

/-- `update` is undefined only at the back of an empty queue. -/
theorem update_defined (h : c.Coherent) {r : LruCollector × Option UInt32}
    (hup : c.update id = some r) : 0 < c.size ∨ c.ids ≠ [] := by
  by_contra hcon
  obtain ⟨hsize, hids⟩ := not_or.1 hcon
  have hids : c.ids = [] := not_not.1 hids
  have hq : c.queue = [] := List.map_eq_nil_iff.1 hids
  have hit : c.iterators id = none := by
    cases hit : c.iterators id with
    | none => rfl
    | some node =>
        have hmem := h.mem_ids_iff.2 ⟨node, hit⟩
        rw [hids] at hmem
        cases hmem
  have hnone : c.update id = none := by
    simp only [update, hit, hq, List.length_nil, List.getLast?_nil]
    rw [if_pos (by omega)]
  rw [hnone] at hup
  cases hup

/-- The collector tracks what was used last, as much as it has room
for; `used` are all uses, newest first. -/
structure Tracks (c : LruCollector) (used : List UInt32) : Prop where
  coherent : c.Coherent
  size : 0 < c.size
  ids : c.ids = (Recency.recents used).take c.size

theorem tracks_new {size : Nat} (hsize : 0 < size) : (new size).Tracks [] :=
  ⟨coherent_new size, hsize, (List.take_nil).symm⟩

/-- An update is one more use. -/
theorem Tracks.update {used : List UInt32} (h : c.Tracks used)
    (id : UInt32) :
    ∃ c', c.update id = some (c', Recency.evicted c.size c.ids id)
      ∧ c'.Tracks (id :: used) ∧ c'.size = c.size := by
  obtain ⟨c', hupdate, hcoherent, hsize, hids⟩ :=
    update_spec h.coherent id (.inl h.size)
  refine ⟨c', hupdate, ⟨hcoherent, ?_, ?_⟩, hsize⟩
  · rw [hsize]
    exact h.size
  · rw [hids, hsize, h.ids]
    exact Recency.touch_recents h.size used id

/-- An update drops what it evicts, and nothing else. -/
theorem Tracks.mem_ids_update {used : List UInt32} (h : c.Tracks used)
    (h' : c'.Tracks (id :: used)) (hsize : c'.size = c.size) (i : UInt32) :
    i ∈ c'.ids
      ↔ i = id ∨ (i ∈ c.ids ∧ Recency.evicted c.size c.ids id ≠ some i) := by
  rw [h'.ids, hsize, ← Recency.touch_recents h.size, ← h.ids,
    Recency.mem_touch h.coherent.nodup_ids]

theorem Tracks.mem_ids {used : List UInt32} (h : c.Tracks used) :
    id ∈ c.ids ↔ id ∈ used ∧ Recency.since used id < c.size := by
  rw [h.ids]
  exact Recency.mem_take_recents

/-- What was used last is tracked. -/
theorem Tracks.head_mem {used : List UInt32} (h : c.Tracks (id :: used)) :
    id ∈ c.ids := by
  obtain ⟨n, hn⟩ := Nat.exists_eq_succ_of_ne_zero (Nat.ne_of_gt h.size)
  rw [h.ids, hn, Recency.recents, List.take_succ_cons]
  exact List.mem_cons_self

theorem Tracks.length_le {used : List UInt32} (h : c.Tracks used) :
    c.ids.length ≤ c.size := by
  rw [h.ids]
  exact List.length_take_le _ _

end LruCollector

end Distfs

/-
The peer table is kept in step: `connections`, `active_peers` and
`peer_candidates` over every run of the pool.

# Layers

- `Table`: what the three containers owe one another, on urls alone. A
  url whose two updates are not both done yet is `pending`: it is in the
  list and not in `active_peers`.
- `Inv`: the table, the order of the list, and what the worker knows
  about the url it has popped while it holds `peer_list_mutex`: no
  handler can have pushed it again.

Each action has one lemma, and `inv_run` carries `Inv` over the runs.
-/
import Distfs.Network.ConnectionPool

namespace Distfs

namespace ConnectionPool

-- ================================================ urls of the list

/-- The urls of the connections, in list order. -/
def urls (s : ConnectionPool) : List Bytes := s.connections.map Connection.url

/-- The list is sorted by ascending availability count. -/
def Sorted (connections : List Connection) : Prop :=
  (connections.map fun c => c.availability.count).Pairwise (· ≤ ·)

/-- Sorting loses no connection. -/
theorem sort_perm (cs : List Connection) : (sort cs).Perm cs :=
  List.perm_insertionSort _ cs

/-- Not less is at most. -/
theorem less_eq_false {a b : Connection} :
    b.less a = false ↔ a.availability.count ≤ b.availability.count := by
  simp [Connection.less, ChunkAvailability.less]

/-- What is sorted is sorted. -/
theorem sorted_sort (cs : List Connection) : Sorted (sort cs) := by
  have : Std.Total fun a b : Connection => b.less a = false :=
    ⟨fun a b => by
      rw [less_eq_false, less_eq_false]
      exact Nat.le_total _ _⟩
  have : IsTrans Connection fun a b => b.less a = false :=
    ⟨fun a b c hab hbc => by
      rw [less_eq_false] at hab hbc ⊢
      exact Nat.le_trans hab hbc⟩
  have hpw := List.pairwise_insertionSort
    (fun a b : Connection => b.less a = false) cs
  exact List.pairwise_map.2 (hpw.imp fun h => less_eq_false.1 h)

/-- A connection that changes in nothing that `f` reads. -/
theorem map_set_same {β : Type} (f : Connection → β) {cs : List Connection}
    {it : Nat} {c d : Connection} (hc : cs[it]? = some c) (hf : f d = f c) :
    (cs.set it d).map f = cs.map f := by
  rw [List.map_set, hf]
  apply List.ext_getElem?
  intro j
  rw [List.getElem?_set]
  split
  · next hj =>
    subst hj
    rw [List.getElem?_map, hc, List.length_map]
    obtain ⟨hlt, -⟩ := List.getElem?_eq_some_iff.1 hc
    rw [if_pos hlt]
    rfl
  · rfl

/-- `info_from` changes no more than it reads. -/
theorem map_updateFirst {β : Type} (f : Connection → β) {nId : UInt64}
    {availability : ChunkAvailability} {now : Int}
    (hf : ∀ c : Connection,
      f { c with availability := availability, lastInfo := now } = f c)
    (cs : List Connection) :
    (updateFirst nId availability now cs).1.map f = cs.map f := by
  induction cs with
  | nil => rfl
  | cons c cs ih =>
      rw [updateFirst]
      split
      · rw [List.map_cons, List.map_cons, hf]
      · rw [List.map_cons, List.map_cons, ih]

-- ======================================================= the table

/-- What the urls of the list, `active_peers` and `peer_candidates` owe
one another, with one url possibly in the middle of an update. -/
structure Table (urls : List Bytes) (active candidates : Finset Bytes)
    (pending : Option Bytes) (limit : Nat) : Prop where
  nodup : urls.Nodup
  mem_iff : ∀ u, u ∈ urls ↔ u ∈ active ∨ pending = some u
  inactive : ∀ u, pending = some u → u ∉ active
  disjoint : ∀ u ∈ candidates, u ∉ active
  bound : urls.length ≤ limit

namespace Table

variable {us vs : List Bytes} {active candidates : Finset Bytes}
  {pending : Option Bytes} {limit : Nat} {u : Bytes}

/-- The order of the urls does not matter. -/
theorem perm (h : Table us active candidates pending limit)
    (hp : vs.Perm us) : Table vs active candidates pending limit :=
  ⟨hp.nodup_iff.2 h.nodup, fun u => hp.mem_iff.trans (h.mem_iff u),
    h.inactive, h.disjoint, hp.length_eq ▸ h.bound⟩

/-- Strings that are not active may become candidates. -/
theorem learn (h : Table us active candidates pending limit)
    {candidates' : Finset Bytes}
    (hnew : ∀ u ∈ candidates', u ∈ candidates ∨ u ∉ active) :
    Table us active candidates' pending limit :=
  { h with
    disjoint := fun u hu => (hnew u hu).elim (h.disjoint u) fun hu => hu }

/-- With nothing pending the list has one connection for each active
peer. -/
theorem length_eq (h : Table us active candidates none limit) :
    us.length = active.card := by
  have hactive : active = us.toFinset := by
    ext u
    rw [List.mem_toFinset, h.mem_iff]
    simp
  rw [hactive, List.toFinset_card_of_nodup h.nodup]

/-- A peer is erased from `active_peers`, its connection still there. -/
theorem erase_active (h : Table us active candidates none limit)
    (hu : u ∈ us) :
    Table us (active.erase u) candidates (some u) limit := by
  have hactive : u ∈ active := by
    rcases (h.mem_iff u).1 hu with hu | hu
    · exact hu
    · cases hu
  refine ⟨h.nodup, fun v => ?_, fun v hv => ?_, fun v hv => ?_, h.bound⟩
  · rw [h.mem_iff, Finset.mem_erase, Option.some.injEq]
    by_cases huv : u = v
    · subst huv
      simp [hactive]
    · simp [huv, Ne.symm huv]
  · rw [Option.some.injEq] at hv
    rw [hv]
    exact Finset.notMem_erase _ _
  · exact fun hmem => h.disjoint v hv (Finset.mem_of_mem_erase hmem)

/-- The connection of the pending url is erased. -/
theorem erase_pending {it : Nat}
    (h : Table us active candidates us[it]? limit) :
    Table (us.eraseIdx it) active candidates none limit := by
  refine ⟨h.nodup.eraseIdx it, fun v => ?_, fun v hv => (by cases hv),
    h.disjoint, Nat.le_trans (List.length_eraseIdx_le _ _) h.bound⟩
  have hmem := h.mem_iff v
  have hinactive := h.inactive v
  cases hit : us[it]? with
  | none =>
      rw [List.eraseIdx_of_length_le (List.getElem?_eq_none_iff.1 hit)]
      rw [hit] at hmem
      exact hmem
  | some p =>
      obtain ⟨hlt, hp⟩ := List.getElem?_eq_some_iff.1 hit
      have hperm := List.getElem_cons_eraseIdx_perm hlt
      rw [hp] at hperm
      have hnodup := List.nodup_cons.1 (hperm.nodup_iff.2 h.nodup)
      rw [hit, Option.some.injEq] at hmem hinactive
      rw [← hperm.mem_iff, List.mem_cons] at hmem
      by_cases hv : p = v
      · subst hv
        simp [hnodup.1, hinactive rfl]
      · simpa [hv, Ne.symm hv] using hmem

/-- A peer that is neither active nor pending is appended. -/
theorem append (h : Table us active candidates none limit)
    (hu : u ∉ active) (hlt : us.length < limit) :
    Table (us ++ [u]) active candidates (some u) limit := by
  have hus : u ∉ us := by
    rw [h.mem_iff]
    simp [hu]
  refine ⟨?_, fun v => ?_, fun v hv => ?_, h.disjoint, ?_⟩
  · rw [List.nodup_append]
    refine ⟨h.nodup, List.nodup_singleton _, ?_⟩
    intro x hx y hy heq
    rw [heq, List.mem_singleton.1 hy] at hx
    exact hus hx
  · rw [List.mem_append, h.mem_iff, List.mem_singleton, Option.some.injEq]
    simp [eq_comm]
  · rw [Option.some.injEq] at hv
    rwa [← hv]
  · rw [List.length_append, List.length_singleton]
    omega

/-- The pending peer becomes active. -/
theorem activate (h : Table us active candidates (some u) limit)
    (hu : u ∉ candidates) :
    Table us (insert u active) candidates none limit := by
  refine ⟨h.nodup, fun v => ?_, fun v hv => (by cases hv), fun v hv => ?_,
    h.bound⟩
  · rw [h.mem_iff, Finset.mem_insert, Option.some.injEq]
    simp [or_comm, eq_comm]
  · rw [Finset.mem_insert]
    intro hmem
    rcases hmem with rfl | hmem
    · exact hu hv
    · exact h.disjoint v hv hmem

/-- The first peer gives way to one that is neither active nor
pending. -/
theorem replace {first : Bytes}
    (h : Table (first :: us) active candidates none limit)
    (hu : u ∉ active) :
    Table (us ++ [u]) (active.erase first) candidates (some u) limit := by
  have hrest : Table us (active.erase first) candidates none limit :=
    @erase_pending (first :: us) _ _ _ 0
      (h.erase_active List.mem_cons_self)
  refine hrest.append (fun hmem => hu (Finset.mem_of_mem_erase hmem)) ?_
  have hbound := h.bound
  rw [List.length_cons] at hbound
  omega

end Table

-- ==================================================== the invariant

/-- The url that is in the list and not in `active_peers`: the worker is
between the updates of the two. -/
def pending (s : ConnectionPool) : Option Bytes :=
  match s.worker with
  | .infoErase _ it => s.urls[it]?
  | .expandInsert _ p => some p
  | .exploreInsert _ _ p => some p
  | _ => none

/-- What the worker knows of the url it has popped: nobody can have
pushed or connected it since, and the room it has seen is still there. -/
def Held (m : Settings) (s : ConnectionPool) : Prop :=
  match s.worker with
  | .expandPush _ c =>
      c.url ∉ s.activePeers ∧ c.url ∉ s.peerCandidates.data
        ∧ s.activePeers.card < m.activeConnectionsLimit.toNat
  | .explorePush _ _ c =>
      c.url ∉ s.activePeers ∧ c.url ∉ s.peerCandidates.data
  | .expandInsert _ p => p ∉ s.peerCandidates.data
  | .exploreInsert _ _ p => p ∉ s.peerCandidates.data
  | _ => True

/-- The invariant of the pool. -/
structure Inv (m : Settings) (s : ConnectionPool) : Prop where
  coherent : s.peerCandidates.Coherent
  table : Table s.urls s.activePeers s.peerCandidates.data s.pending
    m.activeConnectionsLimit.toNat
  sorted : s.holdsConnections = false → Sorted s.connections
  held : s.Held m

variable {m : Settings} {s : ConnectionPool}

/-- The new pool has at most the bootstrap peer. -/
theorem new_inv (hlimit : 0 < m.activeConnectionsLimit.toNat) :
    Inv m (new m) := by
  by_cases hboot : m.metadata.peer ≠ [] ∧ m.metadata.bootstrapPeer = true
  · refine ⟨OrderedSet.new_coherent _, ?_, ?_, trivial⟩
    · refine ⟨?_, ?_, ?_, ?_, ?_⟩
      all_goals simp [new, urls, pending, OrderedSet.new, hboot]
      exact hlimit
    · simp [new, hboot, Sorted]
  · refine ⟨OrderedSet.new_coherent _, ?_, ?_, trivial⟩
    · refine ⟨?_, ?_, ?_, ?_, ?_⟩
      all_goals simp [new, urls, pending, OrderedSet.new, hboot]
    · simp [new, hboot, Sorted]

/-- The worker moves on to a place where it knows nothing. -/
theorem Inv.move {w : Worker} (h : Inv m s) (hpending : s.pending = none)
    (hpending' : pending { s with worker := w } = none)
    (hheld : Held m { s with worker := w })
    (hsorted : holdsConnections { s with worker := w } = false →
      Sorted s.connections) : Inv m { s with worker := w } := by
  refine ⟨h.coherent, ?_, hsorted, hheld⟩
  have htable := h.table
  rw [hpending] at htable
  rw [hpending']
  exact htable

/-- Pushing peers changes the candidates only, by strings that are not
active. -/
theorem pushCandidates_eq (ps : List Bytes) :
    ∀ s : ConnectionPool, s.peerCandidates.Coherent →
      ∃ candidates : OrderedSet,
        ps.foldl pushCandidate s = { s with peerCandidates := candidates }
          ∧ candidates.Coherent
          ∧ ∀ u ∈ candidates.data,
            u ∈ s.peerCandidates.data ∨ u ∉ s.activePeers := by
  induction ps with
  | nil => exact fun s h => ⟨s.peerCandidates, rfl, h, fun u hu => Or.inl hu⟩
  | cons p ps ih =>
      intro s h
      rw [List.foldl_cons, pushCandidate]
      split
      · exact ih s h
      · next hp =>
        obtain ⟨hpush, hnew, -⟩ := OrderedSet.push_spec h p
        obtain ⟨candidates, heq, hcoh, hsub⟩ :=
          ih { s with peerCandidates := (s.peerCandidates.push p).2 } hpush
        refine ⟨candidates, heq, hcoh, fun u hu => ?_⟩
        rcases hsub u hu with hu | hu
        · rcases hnew u hu with rfl | hu
          · exact Or.inr hp
          · exact Or.inl hu
        · exact Or.inr hu

-- =================================================== the worker

/-- A connection that keeps its url. -/
theorem urls_set {it : Nat} {c d : Connection}
    (hc : s.connections[it]? = some c) (hd : d.url = c.url) :
    (s.connections.set it d).map Connection.url = s.urls :=
  map_set_same Connection.url hc hd

/-- A turn of `worker_get_info` keeps the table. -/
theorem workerGetInfo_inv {now : Int} {it : Nat} {x : Input}
    (h : Inv m s) (hw : s.worker = .info now it) :
    Inv m (s.workerGetInfo now it x) := by
  have hpending : s.pending = none := by rw [pending, hw]
  have htable := h.table
  rw [hpending] at htable
  rw [workerGetInfo]
  cases hc : s.connections[it]? with
  | none =>
      refine ⟨h.coherent, ?_, fun _ => sorted_sort _, trivial⟩
      exact htable.perm ((sort_perm _).map _)
  | some c =>
      show Inv m (if infoRefreshS < now - c.lastInfo then _ else _)
      split
      · cases x.info with
        | some response =>
            refine ⟨h.coherent, ?_, fun hfree => (by cases hfree), trivial⟩
            exact htable.perm (List.Perm.of_eq (urls_set hc (by rfl)))
        | none =>
            refine ⟨h.coherent, ?_, fun hfree => (by cases hfree), trivial⟩
            have hurl : s.urls[it]? = some c.url := by
              rw [urls, List.getElem?_map, hc]
              rfl
            show Table s.urls _ _ s.urls[it]? _
            rw [hurl]
            exact htable.erase_active (List.mem_of_getElem? hurl)
      · exact h.move hpending rfl trivial fun hfree => (by cases hfree)

/-- A turn of `worker_get_pex`. -/
theorem workerGetPex_inv {now : Int} {it : Nat} {x : Input}
    (h : Inv m s) (hw : s.worker = .pex now it) :
    Inv m (s.workerGetPex now it x) := by
  have hpending : s.pending = none := by rw [pending, hw]
  have htable := h.table
  rw [hpending] at htable
  rw [workerGetPex]
  cases hc : s.connections[it]? with
  | none =>
      refine ⟨h.coherent, ?_, fun _ => sorted_sort _, trivial⟩
      exact htable.perm ((sort_perm _).map _)
  | some c =>
      show Inv m (if pexRefreshS < now - c.lastPex then _ else _)
      split
      · cases x.peers with
        | some peers =>
            obtain ⟨candidates, heq, hcoh, hnew⟩ :=
              pushCandidates_eq peers s h.coherent
            show Inv m _
            simp only [heq]
            refine ⟨hcoh, ?_, fun hfree => (by cases hfree), trivial⟩
            exact (htable.learn hnew).perm
              (List.Perm.of_eq (urls_set hc (by rfl)))
        | none =>
            refine ⟨h.coherent, ?_, fun hfree => (by cases hfree), trivial⟩
            have hurl : s.urls[it]? = some c.url := by
              rw [urls, List.getElem?_map, hc]
              rfl
            have herase := htable.erase_active (List.mem_of_getElem? hurl)
            rw [← hurl] at herase
            show Table ((s.connections.eraseIdx it).map _) _ _ none _
            rw [← List.eraseIdx_map]
            exact herase.erase_pending
      · exact h.move hpending rfl trivial fun hfree => (by cases hfree)

/-- The worker pops a candidate: nobody has it any more. -/
theorem Inv.pop {p : Bytes} {candidates : OrderedSet} (h : Inv m s)
    (hpending : s.pending = none) (hsize : 0 < s.peerCandidates.size)
    (hpop : s.peerCandidates.pop = some (p, candidates)) :
    candidates.Coherent
      ∧ Table s.urls s.activePeers candidates.data none
        m.activeConnectionsLimit.toNat
      ∧ p ∉ s.activePeers ∧ p ∉ candidates.data := by
  have hcard : 0 < s.peerCandidates.data.card := by
    apply Nat.pos_of_ne_zero
    intro hzero
    rw [OrderedSet.size, hzero] at hsize
    exact absurd hsize (by decide)
  obtain ⟨p', candidates', hpop', hcoh, hmem, hdata, -⟩ :=
    OrderedSet.pop_spec h.coherent hcard
  rw [hpop, Option.some.injEq, Prod.mk.injEq] at hpop'
  obtain ⟨rfl, rfl⟩ := hpop'
  have htable := h.table
  rw [hpending] at htable
  refine ⟨hcoh, htable.learn fun u hu => ?_, h.table.disjoint p hmem, ?_⟩
  · rw [hdata] at hu
    exact Or.inl (Finset.mem_of_mem_erase hu)
  · rw [hdata]
    exact Finset.notMem_erase _ _

/-- A turn of `worker_expand` up to its push. -/
theorem workerExpand_inv {i : Nat} {x : Input} {t : ConnectionPool}
    (h : Inv m s) (hw : s.worker = .expand i)
    (hstep : workerExpand m s i x = some t) : Inv m t := by
  have hpending : s.pending = none := by rw [pending, hw]
  have hsorted := h.sorted (by rw [holdsConnections, hw])
  rw [workerExpand] at hstep
  split at hstep
  · next hguard =>
    obtain ⟨-, hroom, hsize⟩ := hguard
    cases hpop : s.peerCandidates.pop with
    | none => rw [hpop] at hstep; cases hstep
    | some popped =>
        obtain ⟨p, candidates⟩ := popped
        obtain ⟨hcoh, htable, hactive, hcand⟩ := h.pop hpending hsize hpop
        have hnext : Inv m { s with
            peerCandidates := candidates, worker := .expand (i + 1) } :=
          ⟨hcoh, htable, fun _ => hsorted, trivial⟩
        rw [hpop] at hstep
        cases hinfo : x.info with
        | none =>
            rw [hinfo] at hstep
            cases hstep
            exact hnext
        | some response =>
            rw [hinfo] at hstep
            dsimp only at hstep
            split at hstep
            · cases hstep
              exact hnext
            · cases hstep
              exact ⟨hcoh, htable, fun _ => hsorted, hactive, hcand, hroom⟩
  · cases hstep
    exact h.move hpending rfl trivial fun _ => hsorted

/-- A turn of `worker_explore` up to its replacement. -/
theorem workerExplore_inv {minChunks i : Nat} {x : Input}
    {t : ConnectionPool} (h : Inv m s)
    (hw : s.worker = .explore minChunks i)
    (hstep : workerExplore m s minChunks i x = some t) : Inv m t := by
  have hpending : s.pending = none := by rw [pending, hw]
  have hsorted := h.sorted (by rw [holdsConnections, hw])
  rw [workerExplore] at hstep
  split at hstep
  · next hguard =>
    cases hpop : s.peerCandidates.pop with
    | none => rw [hpop] at hstep; cases hstep
    | some popped =>
        obtain ⟨p, candidates⟩ := popped
        obtain ⟨hcoh, htable, hactive, hcand⟩ :=
          h.pop hpending hguard.1 hpop
        have hnext : Inv m { s with
            peerCandidates := candidates
            worker := .explore minChunks (i + 1) } :=
          ⟨hcoh, htable, fun _ => hsorted, trivial⟩
        rw [hpop] at hstep
        cases hinfo : x.info with
        | none =>
            rw [hinfo] at hstep
            cases hstep
            exact hnext
        | some response =>
            rw [hinfo] at hstep
            dsimp only at hstep
            split at hstep
            · cases hstep
              exact hnext
            · split at hstep
              · cases hstep
                exact hnext
              · cases hstep
                exact ⟨hcoh, htable, fun _ => hsorted, hactive, hcand⟩
  · cases hstep
    exact h.move hpending rfl trivial fun _ => hsorted

/-- The push of `worker_expand`, with its url pending. -/
theorem expandPush_inv {i : Nat} {c : Connection} (h : Inv m s)
    (hw : s.worker = .expandPush i c) :
    Inv m { s with
      connections := sort (s.connections ++ [c])
      worker := .expandInsert i c.url } := by
  have hheld := h.held
  rw [Held, hw] at hheld
  obtain ⟨hactive, hcand, hroom⟩ := hheld
  have htable := h.table
  rw [pending, hw] at htable
  refine ⟨h.coherent, ?_, fun _ => sorted_sort _, hcand⟩
  have happend := htable.append hactive (by rw [htable.length_eq]; exact hroom)
  refine happend.perm (((sort_perm _).map _).trans ?_)
  rw [List.map_append]
  exact List.Perm.refl _

/-- The replacement of `worker_explore`. -/
theorem replaceFirst_inv {minChunks i : Nat} {c : Connection}
    {t : ConnectionPool} (h : Inv m s)
    (hw : s.worker = .explorePush minChunks i c)
    (hstep : s.replaceFirst c = some t) :
    Inv m { t with worker := .exploreInsert minChunks i c.url } := by
  have hheld := h.held
  rw [Held, hw] at hheld
  obtain ⟨hactive, hcand⟩ := hheld
  have htable := h.table
  rw [pending, hw, urls] at htable
  rw [replaceFirst] at hstep
  cases hconn : s.connections with
  | nil => rw [hconn] at hstep; cases hstep
  | cons first rest =>
      rw [hconn] at hstep htable
      cases hstep
      refine ⟨h.coherent, ?_, fun _ => sorted_sort _, hcand⟩
      refine (htable.replace hactive).perm (((sort_perm _).map _).trans ?_)
      rw [List.map_append]
      exact List.Perm.refl _

/-- Every step of the worker keeps the invariant. -/
theorem workerStep_inv {x : Input} {t : ConnectionPool} (h : Inv m s)
    (hstep : workerStep m s x = some t) : Inv m t := by
  rw [workerStep] at hstep
  cases hw : s.worker with
  | ready turn =>
      have hpending : s.pending = none := by rw [pending, hw]
      have hsorted := h.sorted (by rw [holdsConnections, hw])
      rw [hw] at hstep
      cases turn with
      | explore =>
          dsimp only at hstep
          split at hstep
          all_goals
            cases hstep
            exact h.move hpending rfl trivial fun _ => hsorted
      | getInfo | getPex | expand =>
          cases hstep
          exact h.move hpending rfl trivial fun _ => hsorted
  | info now it =>
      rw [hw] at hstep
      cases hstep
      exact workerGetInfo_inv h hw
  | infoErase now it =>
      rw [hw] at hstep
      cases hstep
      refine ⟨h.coherent, ?_, fun hfree => (by cases hfree), trivial⟩
      have htable := h.table
      rw [pending, hw] at htable
      show Table ((s.connections.eraseIdx it).map _) _ _ none _
      rw [← List.eraseIdx_map]
      exact htable.erase_pending
  | pex now it =>
      rw [hw] at hstep
      cases hstep
      exact workerGetPex_inv h hw
  | expand i =>
      rw [hw] at hstep
      exact workerExpand_inv h hw hstep
  | expandPush i c =>
      rw [hw] at hstep
      cases hstep
      exact expandPush_inv h hw
  | expandInsert i p | exploreInsert minChunks i p =>
      rw [hw] at hstep
      cases hstep
      have hheld := h.held
      have htable := h.table
      rw [Held, hw] at hheld
      rw [pending, hw] at htable
      exact ⟨h.coherent, htable.activate hheld,
        fun _ => h.sorted (by rw [holdsConnections, hw]), trivial⟩
  | exploreWait minChunks =>
      rw [hw] at hstep
      cases hstep
      exact h.move (by rw [pending, hw]) rfl trivial
        fun _ => h.sorted (by rw [holdsConnections, hw])
  | explore minChunks i =>
      rw [hw] at hstep
      exact workerExplore_inv h hw hstep
  | explorePush minChunks i c =>
      rw [hw] at hstep
      dsimp only at hstep
      cases hreplace : s.replaceFirst c with
      | none => rw [hreplace] at hstep; cases hstep
      | some r =>
          rw [hreplace] at hstep
          cases hstep
          exact replaceFirst_inv h hw hreplace

-- ================================================= the handlers

/-- Without `peer_list_mutex` the worker knows nothing. -/
theorem held_of_free (hfree : s.holdsPeers = false) : s.Held m := by
  revert hfree
  unfold holdsPeers Held
  cases s.worker <;> simp

/-- Urls that a caller names. -/
theorem learn_inv (ps : List Bytes) (h : Inv m s)
    (hfree : s.holdsPeers = false) (calls : List Call) :
    Inv m { ps.foldl pushCandidate s with calls := calls } := by
  obtain ⟨candidates, heq, hcoh, hnew⟩ := pushCandidates_eq ps s h.coherent
  rw [heq]
  exact ⟨hcoh, h.table.learn hnew, h.sorted, held_of_free hfree⟩

/-- While the lock is free the worker alone says what is pending. -/
theorem pending_congr {t : ConnectionPool} (hw : t.worker = s.worker)
    (hfree : s.holdsConnections = false) : t.pending = s.pending := by
  unfold pending
  rw [hw]
  revert hfree
  unfold holdsConnections
  cases s.worker <;> simp

/-- If no connection has the node id, none is changed. -/
theorem updateFirst_unchanged {nId : UInt64}
    {availability : ChunkAvailability} {now : Int} (cs : List Connection)
    (h : (updateFirst nId availability now cs).2 = false) :
    (updateFirst nId availability now cs).1 = cs := by
  induction cs with
  | nil => rfl
  | cons c cs ih =>
      rw [updateFirst] at h ⊢
      split
      · next hc =>
        rw [if_pos hc] at h
        cases h
      · next hc =>
        rw [if_neg hc] at h
        show c :: (updateFirst nId availability now cs).1 = c :: cs
        rw [ih h]

/-- The second section of `info_from` keeps the urls, and it sorts the
list if it has changed a count. -/
theorem infoUpdate_inv {nId : UInt64} {availability : ChunkAvailability}
    {now : Int} (h : Inv m s) (hfree : s.holdsConnections = false)
    (calls : List Call) :
    Inv m { s.infoUpdate nId availability now with calls := calls } := by
  have htable := h.table
  refine ⟨h.coherent, ?_, fun _ => ?_, h.held⟩
  · rw [@pending_congr s { s.infoUpdate nId availability now with
      calls := calls } rfl hfree]
    refine htable.perm ?_
    have hurls : (updateFirst nId availability now s.connections).1.map
        Connection.url = s.connections.map Connection.url :=
      map_updateFirst Connection.url (fun _ => rfl) s.connections
    rw [urls, urls, ← hurls, infoUpdate]
    dsimp only
    split
    · exact (sort_perm _).map _
    · exact List.Perm.refl _
  · rw [infoUpdate]
    dsimp only
    split
    · exact sorted_sort _
    · next hsame =>
      rw [updateFirst_unchanged _ (by simpa using hsame)]
      exact h.sorted hfree

/-- The unlocked loop of `pex_from` changes nothing the invariant sees,
wherever the worker is. -/
theorem pexVisit_inv {i : Nat} {now : Int} {c : Connection} (h : Inv m s)
    (hc : s.connections[i]? = some c) :
    Inv m { s with
      connections := s.connections.set i { c with lastPex := now } } := by
  have hurls : urls { s with
      connections := s.connections.set i { c with lastPex := now } }
      = s.urls := urls_set hc (by rfl)
  have hpending : pending { s with
      connections := s.connections.set i { c with lastPex := now } }
      = s.pending := by
    unfold pending
    rw [hurls]
  refine ⟨h.coherent, ?_, fun hfree => ?_, h.held⟩
  · rw [hurls, hpending]
    exact h.table
  · have hsorted := h.sorted hfree
    rw [Sorted] at hsorted ⊢
    rw [map_set_same (fun c => c.availability.count) hc (by rfl)]
    exact hsorted

/-- Every action keeps the invariant. -/
theorem step_inv {a : Action} {t : ConnectionPool} (h : Inv m s)
    (hstep : step m s a = some t) : Inv m t := by
  cases a with
  | worker x => exact workerStep_inv h hstep
  | infoFrom peer nId availability =>
      rw [step] at hstep
      split at hstep
      · cases hstep
      · next hfree =>
        cases hstep
        exact learn_inv [peer] h (by simpa using hfree) _
  | infoUpdate k now =>
      rw [step] at hstep
      split at hstep
      · cases hstep
      · next hfree =>
        split at hstep
        · cases hstep
          exact infoUpdate_inv h (by simpa using hfree) _
        · cases hstep
  | pexFrom nId incomingList =>
      rw [step] at hstep
      split at hstep
      · cases hstep
      · next hfree =>
        cases hstep
        exact learn_inv _ h (by simpa using hfree) _
  | pexVisit k i now =>
      rw [step] at hstep
      split at hstep
      · next nId outgoing c hcall hc =>
        split at hstep
        · cases hstep
          exact pexVisit_inv h hc
        · cases hstep
          exact ⟨h.coherent, h.table, h.sorted, h.held⟩
      · cases hstep
  | pexReturn k =>
      rw [step] at hstep
      split at hstep
      · cases hstep
        exact ⟨h.coherent, h.table, h.sorted, h.held⟩
      · cases hstep

/-- The invariant holds in every state a run reaches. -/
theorem run_inv (hlimit : 0 < m.activeConnectionsLimit.toNat)
    {as : List Action} {t : ConnectionPool} (h : run m as = some t) :
    Inv m t :=
  Machine.run_invariant (fun _ _ _ hs hstep => step_inv hs hstep) as _ _
    (new_inv hlimit) h

/-- In every state a run reaches, wherever the worker and the handlers
are: no url is listed twice, none is a candidate and active, and there
are at most `active_connections_limit` connections. The urls of the list
are exactly the active peers, and at most one more, `pending`: the one
the worker has put in the list and is about to insert in `active_peers`,
or has erased there and is about to erase from the list. The list is
sorted whenever `connections_mutex` is free. So between two rounds the
urls are exactly the active peers, in a sorted list. -/
theorem peerTable_reachable (m : Settings)
    (hlimit : 0 < m.activeConnectionsLimit.toNat) (as : List Action)
    (t : ConnectionPool) (h : run m as = some t) :
    t.urls.Nodup
      ∧ (∀ u, u ∈ t.urls ↔ u ∈ t.activePeers ∨ t.pending = some u)
      ∧ (∀ u, t.pending = some u → u ∉ t.activePeers)
      ∧ (∀ u ∈ t.peerCandidates.data, u ∉ t.activePeers)
      ∧ t.connections.length ≤ m.activeConnectionsLimit.toNat
      ∧ (t.holdsConnections = false → Sorted t.connections)
      ∧ ∀ turn, t.worker = .ready turn →
        (∀ u, u ∈ t.urls ↔ u ∈ t.activePeers) ∧ Sorted t.connections := by
  have hinv := run_inv hlimit h
  refine ⟨hinv.table.nodup, hinv.table.mem_iff, hinv.table.inactive,
    hinv.table.disjoint, ?_, hinv.sorted, ?_⟩
  · have hbound := hinv.table.bound
    rwa [urls, List.length_map] at hbound
  · intro turn hw
    refine ⟨fun u => ?_, hinv.sorted (by rw [holdsConnections, hw])⟩
    have hmem := hinv.table.mem_iff u
    rw [pending, hw] at hmem
    simpa using hmem

/-- A pool of two connections in file system 9, without a bootstrap
peer. -/
def smallPool : Settings :=
  { metadata := { peer := [], bootstrapPeer := false, id := 9, nodeId := 0 }
    activeConnectionsLimit := 2
    peerCandidatesLimit := 8
    nodeId := 1 }

/-- A worker step in which no peer answers. -/
def tick (now : Int) : Action :=
  .worker { now := now, info := none, peers := none }

/-- A worker step in which node `nId` answers an info request. -/
def reply (now : Int) (nId : UInt64) (available : Bytes) : Action :=
  .worker
    { now := now
      info := some { fsId := 9, nodeId := nId, available := available }
      peers := none }

/-- Peer exchange brings in two urls, and `worker_expand` connects to
both. -/
def connectBoth (a b : UInt64) : List Action :=
  [.pexFrom 7 [[97], [98]], .pexReturn 0, tick 0, tick 0, tick 0, tick 0,
    tick 0, reply 0 a [], tick 0, tick 0, reply 0 b [], tick 0, tick 0]

theorem peerTable_two_peers :
    ∃ t, run smallPool (connectBoth 5 6) = some t
      ∧ t.urls = [[97], [98]] ∧ t.urls.Nodup :=
  ⟨_, rfl, rfl,
    (peerTable_reachable smallPool (by decide) (connectBoth 5 6) _ rfl).1⟩

/-- A call of `info_from` that was past its first section when the
worker took `peer_list_mutex` can return between the two updates of
`worker_expand`: the url is in the list and not yet active. And a call
of `pex_from` can return while `worker_get_info` is in its loop: the list
is not sorted. -/
theorem peerTable_handler_returns_early :
    (∃ t, run smallPool
        [.infoFrom [98] 7 { chunks := ∅ }, tick 0, tick 0, tick 0, tick 0,
          tick 0, reply 0 5 [], tick 0, .infoUpdate 0 0] = some t
      ∧ t.calls = [] ∧ [98] ∈ t.urls ∧ [98] ∉ t.activePeers)
    ∧ ∃ t, run smallPool
        (connectBoth 5 6 ++ [tick 0, tick 0, tick 11, reply 11 5 [255],
          .pexFrom 7 [], .pexReturn 0]) = some t
      ∧ t.calls = [] ∧ ¬ Sorted t.connections := by
  refine ⟨⟨_, rfl, by decide, by decide, by decide⟩, _, rfl, by decide, ?_⟩
  unfold Sorted
  decide

end ConnectionPool

end Distfs

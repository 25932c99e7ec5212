/-
One connection per node: which runs of the pool keep the node ids of the
connections distinct and different from the pool's own.

Urls are kept distinct (`peerTable_reachable`), node ids are not: both
places that connect to a candidate report a reply under the pool's own
id and go on, and neither looks for the id in the list. The runs that do
keep the ids apart are exactly those in which no connection is added
under an id that is taken (`oneConnectionPerNode_iff`).
-/
import Distfs.Network.PeerTable

namespace Distfs

namespace ConnectionPool

/-- The node ids of the connections, in list order. -/
def nIds (s : ConnectionPool) : List UInt64 := s.connections.map Connection.nId

/-- No node is connected twice, and the pool not to itself. -/
def OneConnectionPerNode (m : Settings) (s : ConnectionPool) : Prop :=
  s.nIds.Nodup ∧ m.nodeId ∉ s.nIds

/-- If the action adds a connection, it does so under a node id that is
not the pool's own and not in the list (`worker_explore` drops the first
connection as it does). -/
def NewNode (m : Settings) (s : ConnectionPool) : Action → Prop
  | .worker _ =>
      match s.worker with
      | .expandPush _ c => c.nId ≠ m.nodeId ∧ c.nId ∉ s.nIds
      | .explorePush _ _ c => c.nId ≠ m.nodeId ∧ c.nId ∉ s.nIds.tail
      | _ => True
  | _ => True

variable {m : Settings} {s t : ConnectionPool}

-- ======================================== steps that add nothing

/-- Sorting keeps the node ids. -/
theorem nIds_sort (cs : List Connection) :
    ((sort cs).map Connection.nId).Perm (cs.map Connection.nId) :=
  (sort_perm cs).map _

/-- A connection that keeps its node id. -/
theorem nIds_set {it : Nat} {c d : Connection}
    (hc : s.connections[it]? = some c) (hd : d.nId = c.nId) :
    (s.connections.set it d).map Connection.nId = s.nIds :=
  map_set_same Connection.nId hc hd

/-- An erasure takes one away. -/
theorem nIds_eraseIdx (it : Nat) :
    ((s.connections.eraseIdx it).map Connection.nId).Sublist s.nIds :=
  (List.eraseIdx_sublist _ _).map _

/-- With fewer connections there is still one for each node. -/
theorem OneConnectionPerNode.subperm (h : OneConnectionPerNode m s)
    (hsub : t.nIds.Subperm s.nIds) : OneConnectionPerNode m t := by
  obtain ⟨l, hperm, hl⟩ := hsub
  refine ⟨hperm.nodup_iff.1 (hl.nodup h.1), fun hmem => h.2 ?_⟩
  exact hl.subset (hperm.mem_iff.2 hmem)

/-- `worker_get_info` adds no node id. -/
theorem nIds_workerGetInfo {now : Int} {it : Nat} {x : Input} :
    (s.workerGetInfo now it x).nIds.Subperm s.nIds := by
  rw [workerGetInfo]
  cases hc : s.connections[it]? with
  | none => exact (nIds_sort _).subperm
  | some c =>
      dsimp only
      split
      · cases x.info with
        | some response =>
            exact (List.Perm.of_eq (nIds_set hc (by rfl))).subperm
        | none => exact (List.Perm.refl _).subperm
      · exact (List.Perm.refl _).subperm

/-- New candidates leave the connections. -/
theorem connections_pushCandidate (ps : List Bytes) :
    ∀ s : ConnectionPool,
      (ps.foldl pushCandidate s).connections = s.connections := by
  induction ps with
  | nil => exact fun _ => rfl
  | cons p ps ih =>
      intro s
      rw [List.foldl_cons, ih, pushCandidate]
      split <;> rfl

/-- `worker_get_pex` adds no node id. -/
theorem nIds_workerGetPex {now : Int} {it : Nat} {x : Input} :
    (s.workerGetPex now it x).nIds.Subperm s.nIds := by
  rw [workerGetPex]
  cases hc : s.connections[it]? with
  | none => exact (nIds_sort _).subperm
  | some c =>
      dsimp only
      split
      · cases x.peers with
        | some peers =>
            rw [nIds]
            dsimp only
            rw [connections_pushCandidate]
            exact (List.Perm.of_eq (nIds_set hc (by rfl))).subperm
        | none => exact (nIds_eraseIdx it).subperm
      · exact (List.Perm.refl _).subperm

/-- `worker_expand` leaves the connections up to its push. -/
theorem connections_workerExpand {i : Nat} {x : Input}
    (h : workerExpand m s i x = some t) : t.connections = s.connections := by
  unfold workerExpand at h
  grind

/-- `worker_explore` leaves them up to its replacement. -/
theorem connections_workerExplore {minChunks i : Nat} {x : Input}
    (h : workerExplore m s minChunks i x = some t) :
    t.connections = s.connections := by
  unfold workerExplore at h
  grind

/-- `info_from` adds no node id. -/
theorem nIds_infoUpdate {nId : UInt64} {availability : ChunkAvailability}
    {now : Int} :
    (s.infoUpdate nId availability now).nIds.Subperm s.nIds := by
  have hids : (updateFirst nId availability now s.connections).1.map
      Connection.nId = s.nIds :=
    map_updateFirst Connection.nId (fun _ => rfl) s.connections
  rw [← hids, nIds, infoUpdate]
  dsimp only
  split
  · exact (nIds_sort _).subperm
  · exact (List.Perm.refl _).subperm

-- ========================================= steps that add a node

/-- With one more connection, the property is that its node is new. -/
theorem oneConnectionPerNode_append {l : List UInt64} {n : UInt64}
    (hnodup : l.Nodup) (hown : m.nodeId ∉ l) (ht : t.nIds.Perm (l ++ [n])) :
    OneConnectionPerNode m t ↔ n ≠ m.nodeId ∧ n ∉ l := by
  have hfresh : (∀ a ∈ l, ∀ b ∈ [n], a ≠ b) ↔ n ∉ l := by
    simp only [List.mem_singleton, forall_eq]
    exact ⟨fun h hn => h n hn rfl, fun h a ha heq => h (heq ▸ ha)⟩
  rw [OneConnectionPerNode, ht.nodup_iff, ht.mem_iff, List.nodup_append,
    hfresh]
  simp [hnodup, hown, eq_comm, and_comm]

/-- What a step of the worker does to the property. -/
theorem workerStep_iff {x : Input} (h : OneConnectionPerNode m s)
    (hstep : workerStep m s x = some t) :
    OneConnectionPerNode m t ↔ NewNode m s (.worker x) := by
  rw [workerStep] at hstep
  rw [NewNode]
  cases hw : s.worker with
  | ready turn =>
      rw [hw] at hstep
      refine iff_of_true (h.subperm ?_) trivial
      cases turn with
      | explore =>
          dsimp only at hstep
          split at hstep <;> cases hstep <;> exact (List.Perm.refl _).subperm
      | getInfo | getPex | expand =>
          cases hstep
          exact (List.Perm.refl _).subperm
  | info now it =>
      rw [hw] at hstep
      cases hstep
      exact iff_of_true (h.subperm nIds_workerGetInfo) trivial
  | infoErase now it =>
      rw [hw] at hstep
      cases hstep
      exact iff_of_true (h.subperm (nIds_eraseIdx it).subperm) trivial
  | pex now it =>
      rw [hw] at hstep
      cases hstep
      exact iff_of_true (h.subperm nIds_workerGetPex) trivial
  | expand i =>
      rw [hw] at hstep
      refine iff_of_true (h.subperm ?_) trivial
      rw [nIds, connections_workerExpand hstep]
      exact (List.Perm.refl _).subperm
  | expandPush i c =>
      rw [hw] at hstep
      cases hstep
      apply oneConnectionPerNode_append h.1 h.2
      refine (nIds_sort _).trans ?_
      rw [List.map_append]
      exact List.Perm.refl _
  | expandInsert i p | exploreInsert minChunks i p | exploreWait minChunks =>
      rw [hw] at hstep
      cases hstep
      exact iff_of_true (h.subperm (List.Perm.refl _).subperm) trivial
  | explore minChunks i =>
      rw [hw] at hstep
      refine iff_of_true (h.subperm ?_) trivial
      rw [nIds, connections_workerExplore hstep]
      exact (List.Perm.refl _).subperm
  | explorePush minChunks i c =>
      rw [hw] at hstep
      dsimp only at hstep
      rw [OneConnectionPerNode, nIds] at h
      rw [nIds]
      cases hconn : s.connections with
      | nil =>
          rw [replaceFirst, hconn] at hstep
          cases hstep
      | cons first rest =>
          rw [replaceFirst, hconn] at hstep
          cases hstep
          rw [hconn, List.map_cons, List.nodup_cons, List.mem_cons] at h
          apply oneConnectionPerNode_append h.1.2
            (fun hmem => h.2 (Or.inr hmem))
          refine (nIds_sort _).trans ?_
          rw [List.map_append]
          exact List.Perm.refl _

/-- An action keeps the property exactly if it adds no node that is
taken. -/
theorem step_iff {a : Action} (h : OneConnectionPerNode m s)
    (hstep : step m s a = some t) :
    OneConnectionPerNode m t ↔ NewNode m s a := by
  cases a with
  | worker x => exact workerStep_iff h hstep
  | infoFrom peer nId availability =>
      refine iff_of_true (h.subperm ?_) trivial
      rw [step] at hstep
      split at hstep
      · cases hstep
      · cases hstep
        rw [nIds]
        dsimp only
        rw [show (s.pushCandidate peer).connections = s.connections from
          connections_pushCandidate [peer] s]
        exact (List.Perm.refl _).subperm
  | pexFrom nId incomingList =>
      refine iff_of_true (h.subperm ?_) trivial
      rw [step] at hstep
      split at hstep
      · cases hstep
      · cases hstep
        rw [nIds]
        dsimp only
        rw [connections_pushCandidate]
        exact (List.Perm.refl _).subperm
  | infoUpdate k now =>
      refine iff_of_true (h.subperm ?_) trivial
      rw [step] at hstep
      split at hstep
      · cases hstep
      · split at hstep
        · cases hstep
          exact nIds_infoUpdate
        · cases hstep
  | pexVisit k i now =>
      refine iff_of_true (h.subperm ?_) trivial
      rw [step] at hstep
      split at hstep
      · next nId outgoing c hcall hc =>
        split at hstep
        · cases hstep
          exact (List.Perm.of_eq (nIds_set hc (by rfl))).subperm
        · cases hstep
          exact (List.Perm.refl _).subperm
      · cases hstep
  | pexReturn k =>
      refine iff_of_true (h.subperm ?_) trivial
      rw [step] at hstep
      split at hstep <;> cases hstep
      exact (List.Perm.refl _).subperm

-- ======================================================== all runs

/-- The new pool has one for each node unless it is bootstrapped from its own
id. -/
theorem new_iff : OneConnectionPerNode m (new m)
    ↔ (m.metadata.peer ≠ [] → m.metadata.bootstrapPeer = true →
        m.metadata.nodeId ≠ m.nodeId) := by
  by_cases hboot : m.metadata.peer ≠ [] ∧ m.metadata.bootstrapPeer = true
  · simp [OneConnectionPerNode, nIds, new, hboot, eq_comm]
  · have hnone : (new m).nIds = [] := by simp [nIds, new, hboot]
    rw [OneConnectionPerNode, hnone]
    simp
    tauto

/-- In every state of a run the nodes are distinct and none is the pool
itself exactly if the bootstrap node is not the pool itself and every
action of the run that adds a connection adds a new node. -/
theorem oneConnectionPerNode_iff (m : Settings) (as : List Action) :
    (∀ pre post t, as = pre ++ post → run m pre = some t →
        t.nIds.Nodup ∧ m.nodeId ∉ t.nIds)
      ↔ (m.metadata.peer ≠ [] → m.metadata.bootstrapPeer = true →
          m.metadata.nodeId ≠ m.nodeId)
        ∧ ∀ pre a post s t, as = pre ++ a :: post → run m pre = some s →
          step m s a = some t → NewNode m s a := by
  rw [← new_iff]
  exact Machine.forall_reached_iff (fun _ _ _ h hstep => step_iff h hstep)
    (new m) as

/-- A pool that connects to itself under a url learned from a peer, and
one that connects to node 5 under two urls. -/
theorem connects_twice :
    (∃ t, run smallPool (connectBoth 1 6) = some t
        ∧ smallPool.nodeId ∈ t.nIds)
      ∧ ∃ t, run smallPool (connectBoth 5 5) = some t ∧ t.nIds = [5, 5] :=
  ⟨⟨_, rfl, by decide⟩, _, rfl, by decide⟩

end ConnectionPool

end Distfs

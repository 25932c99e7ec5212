/-
What `worker_explore` replaces: when there is a first connection to erase.

`worker_explore` ends a connection for each peer it accepts, and takes
`connections.begin()` without a look whether there is one. The number of
connections does not change while it runs, except by its own
replacements, so what counts is whether there was one when it began: the
rounds before it may have lost all of them and found no other.

`bare` remembers this. An exploration that began without a connection
must not accept a peer, and this is enough (`hasFirst_iff`).
-/
import Distfs.Network.NodeIdentity

namespace Distfs

namespace ConnectionPool

/-- The worker is inside of `worker_explore`. -/
def exploring : Worker → Bool
  | .exploreWait _ | .explore _ _ | .explorePush _ _ _
  | .exploreInsert _ _ _ => true
  | _ => false

/-- Where the worker is about to replace the first connection, there is
one. -/
def HasFirst (s : ConnectionPool) : Prop :=
  ∀ minChunks i c, s.worker = .explorePush minChunks i c →
    s.connections ≠ []

/-- The reply makes `worker_explore` accept the peer: it is of the same
file system and has more chunks than the first connection had. -/
def accepts (m : Settings) (s : ConnectionPool) (x : Input) : Bool :=
  match s.worker, x.info with
  | .explore minChunks i, some response =>
      0 < s.peerCandidates.size ∧ i < 10 ∧ response.fsId = m.metadata.id
        ∧ minChunks < (ChunkAvailability.ofBitmask response.available).count
  | _, _ => false

/-- Whether the last exploration began without a connection. -/
def bare (s : ConnectionPool) (before : Bool) : Action → Bool
  | .worker _ =>
      match s.worker with
      | .ready .explore => s.connections.isEmpty
      | _ => before
  | _ => before

/-- The pool, with `bare` as a history variable. -/
def runBare (m : Settings) (as : List Action) :
    Option (ConnectionPool × Bool) :=
  Machine.run (Machine.noted (step m) bare) (new m, false) as

variable {m : Settings} {s t : ConnectionPool}

-- ============================================== how many there are

theorem length_sort (cs : List Connection) :
    (sort cs).length = cs.length :=
  (sort_perm cs).length_eq

theorem pushCandidates_fields (ps : List Bytes) :
    ∀ s : ConnectionPool,
      (ps.foldl pushCandidate s).worker = s.worker
        ∧ (ps.foldl pushCandidate s).connections = s.connections := by
  induction ps with
  | nil => exact fun s => ⟨rfl, rfl⟩
  | cons p ps ih =>
      intro s
      obtain ⟨hworker, hconnections⟩ := ih (s.pushCandidate p)
      rw [List.foldl_cons, hworker, hconnections]
      unfold pushCandidate
      split <;> exact ⟨rfl, rfl⟩

/-- A handler neither adds nor removes connections, and does not move the
worker. -/
theorem handler_length {a : Action} (ha : ∀ x, a ≠ .worker x)
    (h : step m s a = some t) :
    t.worker = s.worker ∧ t.connections.length = s.connections.length := by
  cases a with
  | worker x => exact absurd rfl (ha x)
  | infoFrom peer nId availability =>
      rw [step] at h
      split at h
      · cases h
      · cases h
        obtain ⟨hworker, hconnections⟩ := pushCandidates_fields [peer] s
        exact ⟨hworker, congrArg List.length hconnections⟩
  | pexFrom nId incomingList =>
      rw [step] at h
      split at h
      · cases h
      · cases h
        obtain ⟨hworker, hconnections⟩ := pushCandidates_fields incomingList s
        exact ⟨hworker, congrArg List.length hconnections⟩
  | infoUpdate k now =>
      rw [step] at h
      split at h
      · cases h
      · split at h
        · next nId availability hcall =>
          cases h
          refine ⟨rfl, ?_⟩
          have hlen : ((updateFirst nId availability now s.connections).1.map
              Connection.nId).length
              = (s.connections.map Connection.nId).length :=
            congrArg List.length
              (map_updateFirst Connection.nId (fun _ => rfl) s.connections)
          rw [List.length_map, List.length_map] at hlen
          rw [← hlen]
          unfold infoUpdate
          dsimp only
          split
          · exact length_sort _
          · rfl
        · cases h
  | pexVisit k i now =>
      rw [step] at h
      split at h
      · split at h
        · cases h
          exact ⟨rfl, List.length_set⟩
        · cases h
          exact ⟨rfl, rfl⟩
      · cases h
  | pexReturn k =>
      rw [step] at h
      split at h <;> cases h
      exact ⟨rfl, rfl⟩

/-- A step of the loop of `worker_explore` goes on to replace exactly if
the reply is accepted, and stays in the call or ends it. -/
theorem workerExplore_spec {minChunks i : Nat} {x : Input}
    (hw : s.worker = .explore minChunks i)
    (h : workerExplore m s minChunks i x = some t) :
    t.connections = s.connections
      ∧ ((∃ k j c, t.worker = .explorePush k j c)
        ↔ accepts m s x = true) := by
  refine ⟨connections_workerExplore h, ?_⟩
  unfold workerExplore at h
  unfold accepts
  rw [hw]
  split at h
  · next hloop =>
    split at h
    · cases h
    · split at h
      · next hinfo =>
        cases h
        simp [hinfo]
      · next response hinfo =>
        rw [hinfo]
        dsimp only at h ⊢
        split at h
        · next hfs =>
          cases h
          simp [hfs]
        · next hfs =>
          split at h
          · next hcount =>
            have hcount : (ChunkAvailability.ofBitmask
              response.available).count ≤ minChunks := hcount
            cases h
            simp only [reduceCtorEq, exists_false, false_iff,
              decide_eq_true_eq]
            omega
          · next hcount =>
            have hcount : ¬ (ChunkAvailability.ofBitmask
              response.available).count ≤ minChunks := hcount
            cases h
            simp only [decide_eq_true_eq]
            exact iff_of_true ⟨_, _, _, rfl⟩
              ⟨hloop.1, hloop.2, not_not.1 hfs, by omega⟩
  · next hloop =>
    cases h
    cases x.info with
    | none => simp
    | some response =>
        simp only [reduceCtorEq, exists_false, false_iff, decide_eq_true_eq]
        omega

/-- `worker_explore` keeps the number of connections. -/
theorem explore_length {x : Input} (hw : exploring s.worker = true)
    (h : workerStep m s x = some t) :
    t.connections.length = s.connections.length := by
  unfold workerStep at h
  cases hworker : s.worker with
  | ready turn | info now it | infoErase now it | pex now it | expand i
  | expandPush i c | expandInsert i p =>
      rw [hworker] at hw
      cases hw
  | exploreWait minChunks | exploreInsert minChunks i p =>
      rw [hworker] at h
      cases h
      rfl
  | explore minChunks i =>
      rw [hworker] at h
      rw [(workerExplore_spec hworker h).1]
  | explorePush minChunks i c =>
      rw [hworker] at h
      dsimp only at h
      unfold replaceFirst at h
      cases hconn : s.connections with
      | nil =>
          rw [hconn] at h
          cases h
      | cons first rest =>
          rw [hconn] at h
          cases h
          rw [length_sort, List.length_append]
          rfl

/-- Inside of `worker_explore`, what leads to a replacement is that a peer
is accepted. -/
theorem pushes_iff_accepts {x : Input} (hw : exploring s.worker = true)
    (h : workerStep m s x = some t) :
    (∃ k j c, t.worker = .explorePush k j c) ↔ accepts m s x = true := by
  unfold workerStep at h
  cases hworker : s.worker with
  | ready turn | info now it | infoErase now it | pex now it | expand i
  | expandPush i c | expandInsert i p =>
      rw [hworker] at hw
      cases hw
  | exploreWait minChunks | exploreInsert minChunks i p =>
      rw [hworker] at h
      cases h
      simp [accepts, hworker]
  | explore minChunks i =>
      rw [hworker] at h
      exact (workerExplore_spec hworker h).2
  | explorePush minChunks i c =>
      rw [hworker] at h
      dsimp only at h
      split at h
      · cases h
      · cases h
        simp [accepts, hworker]

/-- Before the loop of `worker_explore` the worker is at its head, in its
loop, or at the last turn, in which the connections stay. -/
theorem enters_exploring {x : Input} (hw : exploring s.worker = false)
    (h : workerStep m s x = some t) (ht : exploring t.worker = true) :
    s.worker = .ready .explore ∧ t.connections = s.connections
      ∧ ∃ minChunks, t.worker = .exploreWait minChunks := by
  unfold workerStep at h
  cases hworker : s.worker with
  | ready turn =>
      rw [hworker] at h
      cases turn with
      | getInfo | getPex | expand =>
          cases h
          cases ht
      | explore =>
          dsimp only at h
          split at h
          · cases h
            exact ⟨rfl, rfl, _, rfl⟩
          · cases h
            cases ht
  | info now it =>
      rw [hworker] at h
      cases h
      unfold workerGetInfo at ht
      grind [exploring]
  | pex now it =>
      rw [hworker] at h
      cases h
      unfold workerGetPex at ht
      grind [exploring]
  | expand i =>
      rw [hworker] at h
      dsimp only at h
      unfold workerExpand at h
      grind [exploring]
  | infoErase now it | expandPush i c | expandInsert i p =>
      rw [hworker] at h
      cases h
      cases ht
  | exploreWait minChunks | explore minChunks i | explorePush minChunks i c
  | exploreInsert minChunks i p =>
      rw [hworker] at hw
      cases hw

-- ========================================================= all runs

/-- What `bare` says of an exploration that is under way. -/
def Knows (s : ConnectionPool × Bool) : Prop :=
  exploring s.1.worker = true → (s.1.connections = [] ↔ s.2 = true)

/-- The worker does not accept a peer when `bare` says so. -/
def Declines (m : Settings) (s : ConnectionPool × Bool) (a : Action) : Prop :=
  ∀ x, a = .worker x → accepts m s.1 x = true → s.2 = false

theorem not_accepts {x : Input} (h : exploring s.worker = false) :
    accepts m s x = false := by
  unfold accepts
  cases hw : s.worker with
  | explore minChunks i =>
      rw [hw] at h
      cases h
  | _ => rfl

theorem bare_eq {before : Bool} {a : Action}
    (h : s.worker ≠ .ready .explore ∨ ∀ x, a ≠ .worker x) :
    bare s before a = before := by
  cases a with
  | worker x =>
      unfold bare
      dsimp only
      split
      · next hw =>
        rcases h with h | h
        · exact absurd hw h
        · exact absurd rfl (h x)
      · rfl
  | _ => rfl

/-- Where there was no connection, there is none after a step inside of
`worker_explore`. -/
theorem knows_step {s t : ConnectionPool × Bool} {a : Action}
    (h : Knows s) (hstep : Machine.noted (step m) bare s a = some t) :
    Knows t := by
  obtain ⟨hstep, hbare⟩ := Machine.noted_eq_some.1 hstep
  have hkeep : t.1.connections.length = s.1.connections.length →
      exploring s.1.worker = true → Knows t := by
    intro hlen hw _
    have hready : s.1.worker ≠ .ready .explore := by
      intro hready
      rw [hready] at hw
      cases hw
    rw [← hbare, bare_eq (.inl hready), ← List.length_eq_zero_iff, hlen,
      List.length_eq_zero_iff]
    exact h hw
  by_cases ha : ∀ x, a ≠ .worker x
  · obtain ⟨hworker, hlen⟩ := handler_length ha hstep
    intro hw
    exact hkeep hlen (hworker ▸ hw) hw
  · cases a with
    | worker x =>
        cases hw : exploring s.1.worker with
        | true => exact hkeep (explore_length hw hstep) hw
        | false =>
            intro ht
            obtain ⟨hworker, hconn, -⟩ := enters_exploring hw hstep ht
            rw [hconn, ← hbare, bare, hworker, List.isEmpty_iff]
    | _ => exact absurd (fun x hx => by cases hx) ha

/-- A step leads to a state without a first connection to replace exactly
if it accepts a peer when there was none. -/
theorem hasFirst_step {s t : ConnectionPool × Bool} {a : Action}
    (hknows : Knows s) (h : HasFirst s.1)
    (hstep : Machine.noted (step m) bare s a = some t) :
    HasFirst t.1 ↔ Declines m s a := by
  obtain ⟨hstep, -⟩ := Machine.noted_eq_some.1 hstep
  by_cases ha : ∀ x, a ≠ .worker x
  · obtain ⟨hworker, hlen⟩ := handler_length ha hstep
    refine iff_of_true (fun minChunks i c hw => ?_)
      fun x hx => absurd hx (ha x)
    have hs := h minChunks i c (hworker.symm.trans hw)
    rw [← List.length_pos_iff] at hs ⊢
    omega
  · cases a with
    | worker x =>
        have hdeclines : Declines m s (.worker x)
            ↔ (accepts m s.1 x = true → s.2 = false) := by
          constructor
          · exact fun h => h x rfl
          · intro h y hy
            cases hy
            exact h
        rw [hdeclines]
        cases hw : exploring s.1.worker with
        | false =>
            rw [not_accepts hw]
            refine iff_of_true (fun minChunks i c hpush => ?_)
              fun hx => (by cases hx)
            obtain ⟨-, -, k, hwait⟩ := enters_exploring hw hstep
              (by rw [hpush]; rfl)
            rw [hpush] at hwait
            cases hwait
        | true =>
            have hlen := explore_length hw hstep
            have hempty : t.1.connections = [] ↔ s.2 = true := by
              rw [← List.length_eq_zero_iff, hlen, List.length_eq_zero_iff]
              exact hknows hw
            have hpush := pushes_iff_accepts hw hstep
            constructor
            · intro hfirst haccepts
              obtain ⟨minChunks, i, c, hw'⟩ := hpush.2 haccepts
              have hne := hfirst minChunks i c hw'
              cases hb : s.2 with
              | false => rfl
              | true => exact absurd (hempty.2 hb) hne
            · intro hdec minChunks i c hw' hnil
              have hfalse := hdec (hpush.1 ⟨minChunks, i, c, hw'⟩)
              rw [hempty.1 hnil] at hfalse
              cases hfalse
    | _ => exact absurd (fun x hx => by cases hx) ha

theorem knows_run {as : List Action} {s : ConnectionPool × Bool}
    (h : runBare m as = some s) : Knows s :=
  Machine.run_invariant (fun _ _ _ hknows hstep => knows_step hknows hstep) as
    (new m, false) s (fun hw => (by cases hw)) h

/-- In every state of a run in which the worker is about to replace the
first connection there is one, exactly if no peer is accepted in an
exploration that began without a connection. -/
theorem hasFirst_iff (m : Settings) (as : List Action) :
    (∀ pre post t, as = pre ++ post → run m pre = some t →
        ∀ minChunks i c, t.worker = .explorePush minChunks i c →
        t.connections ≠ [])
      ↔ ∀ pre x post s before t, as = pre ++ .worker x :: post →
        runBare m pre = some (s, before) → step m s (.worker x) = some t →
        accepts m s x = true → before = false := by
  have hreached := @Machine.forall_reached_iff _ _
    (Machine.noted (step m) bare) (fun s => Knows s ∧ HasFirst s.1)
    (Declines m) (fun s a t h hstep => by
      rw [and_iff_right (knows_step h.1 hstep)]
      exact hasFirst_step h.1 h.2 hstep)
    (new m, false) as
  constructor
  · intro hall pre x post s before t has hrun hstep
    have hdeclines := (hreached.1 fun pre post t has ht =>
      ⟨knows_run ht, hall pre post t.1 has
        ((Machine.run_noted pre (new m) false t.1).2 ⟨t.2, ht⟩)⟩).2
      pre (.worker x) post (s, before) (t, bare s before (.worker x)) has hrun
      (Machine.noted_eq_some.2 ⟨hstep, rfl⟩)
    exact hdeclines x rfl
  · intro hcond pre post t has hrun
    obtain ⟨before, hbare⟩ : ∃ before, runBare m pre = some (t, before) :=
      (Machine.run_noted pre (new m) false t).1 hrun
    refine (hreached.2 ⟨⟨fun hw => (by cases hw), fun _ _ _ hw =>
      (by cases hw)⟩, fun pre a post s t has hpre hstep x hx haccepts => ?_⟩
      pre post (t, before) has hbare).2
    subst hx
    exact hcond pre x post s.1 s.2 t.1 has hpre
      (Machine.noted_eq_some.1 hstep).1 haccepts

/-- A worker that has no connection and no candidate when it leaves
`worker_expand`, and then learns of one from `info_from`, replaces the
first connection of an empty list. -/
def learnsLate : List Action :=
  [tick 16, tick 16, tick 16, tick 16, tick 16, tick 16,
    .infoFrom [97] 5 { chunks := ∅ }, .infoUpdate 0 16, tick 16, tick 16,
    reply 16 5 [1]]

theorem explore_replaces_nothing :
    ∃ t, run smallPool learnsLate = some t
      ∧ (∃ minChunks i c, t.worker = .explorePush minChunks i c)
      ∧ t.connections = [] ∧ ∀ x, step smallPool t (.worker x) = none :=
  ⟨_, rfl, ⟨_, _, _, rfl⟩, rfl, fun _ => rfl⟩

end ConnectionPool

end Distfs

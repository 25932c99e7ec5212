/-
What `worker_explore` does to the availability counts.

The threshold `min_chunks` is the count of the first connection when the
call begins; after a replacement another connection is the first. A peer
that is accepted for the old threshold may have fewer chunks than the
connection it replaces.

# What decides

`seen` are the counts the call has met: those of the connections when it
began, and those of the peers accepted since. As long as every
replacement was an improvement the list holds the largest of them
(`Largest`), so the next one is an improvement exactly if fewer of the
counts seen reach it than there are connections (`explore_improves_iff`).
-/
import Distfs.Lib.Largest
import Distfs.Network.Exploration

namespace Distfs

namespace ConnectionPool

/-- The availability counts of the connections, in list order. -/
def counts (s : ConnectionPool) : List Nat :=
  s.connections.map fun c => c.availability.count

/-- The least of them. -/
def least (s : ConnectionPool) : Nat := s.counts.min?.getD 0

/-- The worker is at the head of `worker_explore` or inside of it. -/
def InCall (s : ConnectionPool) : Prop :=
  s.worker = .ready .explore ∨ exploring s.worker = true

/-- The counts a call has met, once the step is taken. -/
def seen (s : ConnectionPool) (before : List Nat) : Action → List Nat
  | .worker _ =>
      match s.worker with
      | .explorePush _ _ c => before ++ [c.availability.count]
      | _ => before
  | _ => before

/-- The pool from `s` on, with the counts met since. -/
def runSeen (m : Settings) (s : ConnectionPool) (as : List Action) :
    Option (ConnectionPool × List Nat) :=
  Machine.run (Machine.noted (step m) seen) (s, s.counts) as

/-- The actions are those of one call of `worker_explore`, with what other
threads do meanwhile; these change no availability. -/
structure OneCall (m : Settings) (s : ConnectionPool) (as : List Action) :
    Prop where
  inside : ∀ pre a post u, as = pre ++ a :: post →
    Machine.run (step m) s pre = some u → u.InCall
  quiet : ∀ pre a post u v, as = pre ++ a :: post →
    Machine.run (step m) s pre = some u → step m u a = some v →
    (∀ x, a ≠ .worker x) →
    v.connections.map Connection.availability
      = u.connections.map Connection.availability

/-- A replacement removes a connection of the least count for one of a
greater count; no step makes the sum or the least of the counts smaller. -/
structure Improves (s : ConnectionPool) (a : Action) (t : ConnectionPool) :
    Prop where
  replaces : ∀ x minChunks i c, a = .worker x →
    s.worker = .explorePush minChunks i c →
    ∃ first rest, s.connections = first :: rest
      ∧ t.connections.Perm (rest ++ [c])
      ∧ (∀ d ∈ s.connections,
        first.availability.count ≤ d.availability.count)
      ∧ first.availability.count < c.availability.count
  sum : s.counts.sum ≤ t.counts.sum
  least : s.least ≤ t.least

variable {m : Settings} {s t : ConnectionPool}

-- ================================================== the list is sorted

theorem counts_of_availability
    (h : t.connections.map Connection.availability
      = s.connections.map Connection.availability) : t.counts = s.counts := by
  have hcounts := congrArg (List.map ChunkAvailability.count) h
  rw [List.map_map, List.map_map] at hcounts
  exact hcounts

/-- A step leaves the list sorted unless it keeps the lock. -/
theorem sorted_workerStep {x : Input}
    (h : s.holdsConnections = false → Sorted s.connections)
    (hstep : workerStep m s x = some t) :
    t.holdsConnections = false → Sorted t.connections := by
  intro hfree
  unfold workerStep at hstep
  cases hw : s.worker with
  | ready turn =>
      have hs := h (by rw [holdsConnections, hw])
      rw [hw] at hstep
      cases turn with
      | getInfo | getPex =>
          cases hstep
          cases hfree
      | expand =>
          cases hstep
          exact hs
      | explore =>
          dsimp only at hstep
          split at hstep <;> cases hstep <;> exact hs
  | info now it =>
      rw [hw] at hstep
      cases hstep
      unfold workerGetInfo at hfree ⊢
      split
      · exact sorted_sort _
      · next c hc =>
        rw [hc] at hfree
        dsimp only at hfree
        split at hfree
        · split at hfree <;> cases hfree
        · cases hfree
  | infoErase now it =>
      rw [hw] at hstep
      cases hstep
      cases hfree
  | pex now it =>
      rw [hw] at hstep
      cases hstep
      unfold workerGetPex at hfree ⊢
      split
      · exact sorted_sort _
      · next c hc =>
        rw [hc] at hfree
        dsimp only at hfree
        split at hfree
        · split at hfree <;> cases hfree
        · cases hfree
  | expand i =>
      have hs := h (by rw [holdsConnections, hw])
      rw [hw] at hstep
      rw [connections_workerExpand hstep]
      exact hs
  | expandPush i c =>
      rw [hw] at hstep
      cases hstep
      exact sorted_sort _
  | expandInsert i p | exploreWait minChunks | exploreInsert minChunks i p =>
      have hs := h (by rw [holdsConnections, hw])
      rw [hw] at hstep
      cases hstep
      exact hs
  | explore minChunks i =>
      have hs := h (by rw [holdsConnections, hw])
      rw [hw] at hstep
      rw [connections_workerExplore hstep]
      exact hs
  | explorePush minChunks i c =>
      rw [hw] at hstep
      dsimp only at hstep
      unfold replaceFirst at hstep
      cases hconn : s.connections with
      | nil =>
          rw [hconn] at hstep
          cases hstep
      | cons first rest =>
          rw [hconn] at hstep
          cases hstep
          exact sorted_sort _

theorem sorted_step {a : Action}
    (h : s.holdsConnections = false → Sorted s.connections)
    (hstep : step m s a = some t) :
    t.holdsConnections = false → Sorted t.connections := by
  cases a with
  | worker x => exact sorted_workerStep h hstep
  | infoFrom peer nId availability =>
      rw [step] at hstep
      split at hstep
      · cases hstep
      · cases hstep
        obtain ⟨hworker, hconn⟩ := pushCandidates_fields [peer] s
        intro hfree
        have hfree : (s.pushCandidate peer).holdsConnections = false := hfree
        have hworker : (s.pushCandidate peer).worker = s.worker := hworker
        rw [holdsConnections, hworker] at hfree
        show Sorted (s.pushCandidate peer).connections
        rw [show (s.pushCandidate peer).connections = s.connections from hconn]
        exact h hfree
  | pexFrom nId incomingList =>
      rw [step] at hstep
      split at hstep
      · cases hstep
      · cases hstep
        obtain ⟨hworker, hconn⟩ := pushCandidates_fields incomingList s
        intro hfree
        have hfree : (incomingList.foldl pushCandidate s).holdsConnections
            = false := hfree
        rw [holdsConnections, hworker] at hfree
        show Sorted (incomingList.foldl pushCandidate s).connections
        rw [hconn]
        exact h hfree
  | infoUpdate k now =>
      rw [step] at hstep
      split at hstep
      · cases hstep
      · next hlock =>
        split at hstep
        · cases hstep
          intro _
          unfold ConnectionPool.infoUpdate
          dsimp only
          split
          · exact sorted_sort _
          · next hsame =>
            rw [updateFirst_unchanged _ (by simpa using hsame)]
            exact h (by simpa using hlock)
        · cases hstep
  | pexVisit k i now =>
      rw [step] at hstep
      split at hstep
      · next nId outgoing c hcall hc =>
        split at hstep
        · cases hstep
          intro hfree
          have hsorted := h hfree
          rw [Sorted] at hsorted ⊢
          rw [map_set_same (fun c => c.availability.count) hc (by rfl)]
          exact hsorted
        · cases hstep
          exact h
      · cases hstep
  | pexReturn k =>
      rw [step] at hstep
      split at hstep <;> cases hstep
      exact h

/-- In every state a run reaches, the list is sorted while nobody holds
`connections_mutex`. -/
theorem sorted_run {as : List Action} (h : run m as = some s) :
    s.holdsConnections = false → Sorted s.connections := by
  refine @Machine.run_invariant _ _ (step m)
    (fun s => s.holdsConnections = false → Sorted s.connections)
    (fun _ _ _ hs hstep => sorted_step hs hstep) as (new m) s (fun _ => ?_) h
  unfold new Sorted
  dsimp only
  split <;> simp

-- =========================================================== one step

/-- What a call keeps: its place, the order of the list, and that the list
holds the largest counts met. -/
structure Gains (s : ConnectionPool × List Nat) : Prop where
  sorted : s.1.holdsConnections = false → Sorted s.1.connections
  nonempty : s.1.connections ≠ []
  largest : Largest s.1.counts s.2

/-- Fewer of the counts met reach that of the new connection than there
are connections. -/
def Rare (s : ConnectionPool × List Nat) (a : Action) : Prop :=
  ∀ x minChunks i c, a = .worker x →
    s.1.worker = .explorePush minChunks i c →
    s.2.countP (c.availability.count ≤ ·) < s.1.connections.length

theorem improves_of_counts {a : Action}
    (ha : ∀ x minChunks i c, a = .worker x →
      s.worker ≠ .explorePush minChunks i c)
    (h : t.counts = s.counts) : Improves s a t := by
  refine ⟨fun x k i c hx hw => absurd hw (ha x k i c hx), ?_, ?_⟩
  · rw [h]
  · rw [ConnectionPool.least, ConnectionPool.least, h]

/-- The least count is that of the first connection. -/
theorem least_of_sorted {first : Connection} {rest : List Connection}
    (hconn : s.connections = first :: rest) (hs : Sorted s.connections) :
    (∀ d ∈ s.connections, first.availability.count ≤ d.availability.count)
      ∧ s.least = first.availability.count := by
  have hle : ∀ d ∈ s.connections,
      first.availability.count ≤ d.availability.count := by
    rw [Sorted, hconn, List.map_cons, List.pairwise_cons] at hs
    intro d hd
    rw [hconn] at hd
    rcases List.mem_cons.1 hd with rfl | hd
    · exact Nat.le_refl _
    · exact hs.1 _ (List.mem_map_of_mem hd)
  refine ⟨hle, ?_⟩
  have hmin : s.counts.min? = some first.availability.count := by
    rw [List.min?_eq_some_iff]
    refine ⟨?_, fun b hb => ?_⟩
    · rw [counts, hconn]
      exact List.mem_cons_self
    · obtain ⟨d, hd, rfl⟩ := List.mem_map.1 hb
      exact hle d hd
  rw [ConnectionPool.least, hmin]
  rfl

theorem counts_cons {first : Connection} {rest : List Connection}
    (hconn : s.connections = first :: rest) :
    s.counts = first.availability.count
      :: rest.map fun d => d.availability.count := by
  rw [counts, hconn, List.map_cons]

/-- The counts once the first connection is replaced. -/
theorem counts_replaced {c : Connection} {rest : List Connection}
    (ht : t.connections = sort (rest ++ [c])) :
    t.counts.Perm ((rest.map fun d => d.availability.count)
      ++ [c.availability.count]) := by
  rw [counts, ht, ← List.map_singleton (f := fun d : Connection =>
    d.availability.count), ← List.map_append]
  exact (sort_perm _).map _

/-- The least count, once a connection that has it is replaced by one of
a greater count, is no smaller. -/
theorem least_replaced {c first : Connection} {rest : List Connection}
    (hle : ∀ d ∈ rest, first.availability.count ≤ d.availability.count)
    (hlt : first.availability.count < c.availability.count)
    (ht : t.connections = sort (rest ++ [c])) :
    first.availability.count ≤ t.least := by
  have htsorted : Sorted t.connections := by
    rw [ht]
    exact sorted_sort _
  cases htconn : t.connections with
  | nil =>
      have hnil := (sort_perm (rest ++ [c])).length_eq
      rw [← ht, htconn] at hnil
      simp at hnil
  | cons e es =>
      rw [(least_of_sorted htconn htsorted).2]
      have hmem : e ∈ rest ++ [c] := by
        rw [← (sort_perm (rest ++ [c])).mem_iff, ← ht, htconn]
        exact List.mem_cons_self
      rcases List.mem_append.1 hmem with he | he
      · exact hle e he
      · rw [List.mem_singleton.1 he]
        exact Nat.le_of_lt hlt

/-- While the list holds the largest counts, the condition is that the
new connection has more than the first. -/
theorem rare_iff_lt {x : Input} {minChunks i : Nat} {c first : Connection}
    {rest : List Connection} {before : List Nat}
    (hw : s.worker = .explorePush minChunks i c)
    (hconn : s.connections = first :: rest)
    (hlargest : Largest s.counts before)
    (hle : ∀ y ∈ rest.map fun d => d.availability.count,
      first.availability.count ≤ y) :
    Rare (s, before) (.worker x)
      ↔ first.availability.count < c.availability.count := by
  rw [counts_cons hconn] at hlargest
  rw [hlargest.lt_iff hle]
  have hlen : s.connections.length = rest.length + 1 := by
    rw [hconn, List.length_cons]
  simp only [Rare, Action.worker.injEq, hlen, List.length_cons,
    List.length_map]
  constructor
  · exact fun hr => hr x minChunks i c rfl hw
  · intro hr y k j d _ hd
    rw [hw] at hd
    cases hd
    exact hr

/-- The replacement of the first connection. -/
theorem improves_replaceFirst {x : Input} {minChunks i : Nat}
    {c first : Connection} {rest : List Connection} {before : List Nat}
    (h : Gains (s, before)) (hw : s.worker = .explorePush minChunks i c)
    (hconn : s.connections = first :: rest)
    (ht : t.connections = sort (rest ++ [c])) :
    (Improves s (.worker x) t ↔ Rare (s, before) (.worker x))
      ∧ (Rare (s, before) (.worker x) →
        Largest t.counts (before ++ [c.availability.count])) := by
  have hsorted : Sorted s.connections :=
    h.sorted (by rw [holdsConnections, hw])
  obtain ⟨hleast, hmin⟩ := least_of_sorted hconn hsorted
  have hlargest : Largest s.counts before := h.largest
  have hrest : ∀ d ∈ rest,
      first.availability.count ≤ d.availability.count :=
    fun d hd => hleast d (by rw [hconn]; exact List.mem_cons_of_mem _ hd)
  have hle : ∀ y ∈ rest.map fun d => d.availability.count,
      first.availability.count ≤ y := by
    intro y hy
    obtain ⟨d, hd, rfl⟩ := List.mem_map.1 hy
    exact hrest d hd
  rw [rare_iff_lt hw hconn hlargest hle]
  rw [counts_cons hconn] at hlargest
  refine ⟨⟨fun himp => ?_, fun hlt => ⟨fun y k j d hy hd => ?_, ?_, ?_⟩⟩,
    fun hlt => (hlargest.replace hle hlt).perm (counts_replaced ht)⟩
  · obtain ⟨first', rest', hconn', -, -, hlt⟩ :=
      himp.replaces x minChunks i c rfl hw
    rw [hconn, List.cons.injEq] at hconn'
    rw [hconn'.1]
    exact hlt
  · rw [hw] at hd
    cases hd
    refine ⟨first, rest, hconn, ?_, hleast, hlt⟩
    rw [ht]
    exact sort_perm _
  · rw [(counts_replaced ht).sum_nat, counts_cons hconn, List.sum_append,
      List.sum_cons, List.sum_singleton]
    omega
  · rw [hmin]
    exact least_replaced hrest hlt ht

/-- A step that replaces nothing. -/
theorem gains_of_counts {a : Action} {before : List Nat}
    (h : Gains (s, before))
    (ha : ∀ x minChunks i c, a = .worker x →
      s.worker ≠ .explorePush minChunks i c)
    (hstep : step m s a = some t) (hcounts : t.counts = s.counts) :
    (Improves s a t ↔ Rare (s, before) a)
      ∧ (Rare (s, before) a → Gains (t, seen s before a)) := by
  refine ⟨iff_of_true (improves_of_counts ha hcounts)
    fun x k i c hx hw => absurd hw (ha x k i c hx), fun _ => ?_⟩
  have hseen : seen s before a = before := by
    cases a with
    | worker x =>
        unfold seen
        dsimp only
        split
        · next k i c hw => exact absurd hw (ha x k i c rfl)
        · rfl
    | _ => rfl
  refine ⟨sorted_step h.sorted hstep, fun hnil => h.nonempty ?_, ?_⟩
  · have hlen := congrArg List.length hcounts
    have hnil : t.connections = [] := hnil
    rw [counts, counts, List.length_map, List.length_map, hnil] at hlen
    exact List.length_eq_zero_iff.1 hlen.symm
  · rw [hseen]
    show Largest t.counts before
    rw [hcounts]
    exact h.largest

/-- A step of the call is an improvement exactly if it meets the
condition, and then the list still holds the largest counts. -/
theorem gains_step {a : Action} {before : List Nat}
    (h : Gains (s, before)) (hcall : s.InCall)
    (hquiet : (∀ x, a ≠ .worker x) →
      t.connections.map Connection.availability
        = s.connections.map Connection.availability)
    (hstep : step m s a = some t) :
    (Improves s a t ↔ Rare (s, before) a)
      ∧ (Rare (s, before) a → Gains (t, seen s before a)) := by
  by_cases ha : ∀ x, a ≠ .worker x
  · exact gains_of_counts h (fun x _ _ _ hx => absurd hx (ha x)) hstep
      (counts_of_availability (hquiet ha))
  obtain ⟨x, hx⟩ := not_forall_not.1 ha
  subst hx
  have hkeep : t.connections = s.connections →
      (∀ k i c, s.worker ≠ .explorePush k i c) →
      (Improves s (.worker x) t ↔ Rare (s, before) (.worker x))
        ∧ (Rare (s, before) (.worker x) →
          Gains (t, seen s before (.worker x))) := by
    intro hconn hw
    refine gains_of_counts h (fun _ k i c _ => hw k i c) hstep ?_
    rw [counts, hconn, counts]
  have hstep' : workerStep m s x = some t := hstep
  unfold workerStep at hstep'
  rcases hcall with hw | hw
  · rw [hw] at hstep'
    dsimp only at hstep'
    refine hkeep ?_ (by rw [hw]; simp)
    split at hstep' <;> cases hstep' <;> rfl
  · cases hworker : s.worker with
    | ready turn | info now it | infoErase now it | pex now it | expand i
    | expandPush i c | expandInsert i p =>
        rw [hworker] at hw
        cases hw
    | exploreWait minChunks | exploreInsert minChunks i p =>
        rw [hworker] at hstep'
        refine hkeep ?_ (by rw [hworker]; simp)
        cases hstep'
        rfl
    | explore minChunks i =>
        rw [hworker] at hstep'
        exact hkeep (connections_workerExplore hstep') (by rw [hworker]; simp)
    | explorePush minChunks i c =>
        rw [hworker] at hstep'
        dsimp only at hstep'
        unfold replaceFirst at hstep'
        cases hconn : s.connections with
        | nil => exact absurd hconn h.nonempty
        | cons first rest =>
            rw [hconn] at hstep'
            dsimp only at hstep'
            have ht : t.connections = sort (rest ++ [c]) := by
              cases hstep'
              rfl
            obtain ⟨hiff, hgains⟩ := improves_replaceFirst h hworker hconn ht
            refine ⟨hiff, fun hr => ⟨sorted_step h.sorted hstep, ?_, ?_⟩⟩
            · intro hnil
              have hlen := (sort_perm (rest ++ [c])).length_eq
              have hnil : t.connections = [] := hnil
              rw [← ht, hnil] at hlen
              simp at hlen
            · have hseen : seen s before (.worker x)
                  = before ++ [c.availability.count] := by
                rw [seen, hworker]
              rw [hseen]
              exact hgains hr

-- ============================================================ one call

/-- Over one call of `worker_explore` from a state a run reaches with some
connection: every step is an improvement exactly if each connection that
is put in the list has a count that fewer of those met in the call reach
than there are connections. -/
theorem explore_improves_iff (m : Settings) (history as : List Action)
    (s : ConnectionPool) (hrun : run m history = some s)
    (hne : s.connections ≠ []) (hcall : OneCall m s as) :
    (∀ pre a post u v, as = pre ++ a :: post →
        Machine.run (step m) s pre = some u → step m u a = some v →
        Improves u a v)
      ↔ ∀ pre x post u before v, as = pre ++ .worker x :: post →
        runSeen m s pre = some (u, before) →
        step m u (.worker x) = some v →
        ∀ minChunks i c, u.worker = .explorePush minChunks i c →
        before.countP (c.availability.count ≤ ·) < u.connections.length := by
  have hstart : Gains (s, s.counts) :=
    ⟨sorted_run hrun, hne, Largest.refl _⟩
  have hsteps := @Machine.forall_steps_iff _ _ (Machine.noted (step m) seen)
    Gains (fun u a v => Improves u.1 a v.1) Rare as (s, s.counts) hstart
    (fun pre a post u v has hpre hstep hgains => by
      obtain ⟨hstep, hseen⟩ := Machine.noted_eq_some.1 hstep
      have hpre := (Machine.run_noted pre s s.counts u.1).2 ⟨u.2, hpre⟩
      have hone := @gains_step m u.1 v.1 a u.2 hgains
        (hcall.inside pre a post u.1 has hpre)
        (hcall.quiet pre a post u.1 v.1 has hpre hstep) hstep
      rw [hseen] at hone
      exact hone)
  constructor
  · intro hall pre x post u before v has hpre hstep k i c hw
    refine hsteps.1 (fun pre a post u v has hpre hstep => ?_) pre (.worker x)
      post (u, before) (v, seen u before (.worker x)) has hpre
      (Machine.noted_eq_some.2 ⟨hstep, rfl⟩) x k i c rfl hw
    exact hall pre a post u.1 v.1 has
      ((Machine.run_noted pre s s.counts u.1).2 ⟨u.2, hpre⟩)
      (Machine.noted_eq_some.1 hstep).1
  · intro hcond pre a post u v has hpre hstep
    obtain ⟨before, hnoted⟩ := (Machine.run_noted pre s s.counts u).1 hpre
    refine hsteps.2 (fun pre a post u v has hpre hstep x k i c hx hw => ?_)
      pre a post (u, before) (v, seen u before a) has hnoted
      (Machine.noted_eq_some.2 ⟨hstep, rfl⟩)
    subst hx
    exact hcond pre x post u.1 u.2 v.1 has hpre
      (Machine.noted_eq_some.1 hstep).1 k i c hw

theorem oneCall_nil : OneCall m s [] := by
  constructor
  · intro pre a post u has
    simp at has
  · intro pre a post u v has
    simp at has

theorem oneCall_cons {x : Input} {as : List Action} (hin : s.InCall)
    (hstep : step m s (.worker x) = some t) (h : OneCall m t as) :
    OneCall m s (.worker x :: as) := by
  constructor
  · intro pre a post u has hpre
    cases pre with
    | nil =>
        cases hpre
        exact hin
    | cons b pre =>
        cases has
        rw [Machine.run, hstep] at hpre
        exact h.inside pre a post u rfl hpre
  · intro pre a post u v has hpre hv hother
    cases pre with
    | nil =>
        cases has
        exact absurd rfl (hother x)
    | cons b pre =>
        cases has
        rw [Machine.run, hstep] at hpre
        exact h.quiet pre a post u v rfl hpre hv hother

/-- A pool with room for its bootstrap peer, in file system 9. -/
def fullPool : Settings :=
  { metadata :=
      { peer := [99], bootstrapPeer := true, id := 9, nodeId := 2 }
    activeConnectionsLimit := 1
    peerCandidatesLimit := 8
    nodeId := 1 }

/-- It learns of two urls, and comes to `worker_explore`. -/
def beforeExplore : List Action :=
  [.pexFrom 7 [[97], [98]], .pexReturn 0, tick 0, tick 0, tick 0, tick 0,
    tick 0, tick 0, tick 0, tick 0]

/-- The state it is in then. -/
def aboutToExplore : ConnectionPool :=
  (run fullPool beforeExplore).getD (new fullPool)

/-- A peer with two chunks is put in, and then one with a single chunk in
its place. -/
def worseSecond : List Action :=
  [tick 16, tick 16, reply 16 5 [3], tick 16, tick 16, reply 16 6 [1],
    tick 16]

theorem oneCall_worseSecond :
    OneCall fullPool aboutToExplore worseSecond := by
  refine oneCall_cons (.inl rfl) rfl (oneCall_cons (.inr rfl) rfl ?_)
  refine oneCall_cons (.inr rfl) rfl (oneCall_cons (.inr rfl) rfl ?_)
  refine oneCall_cons (.inr rfl) rfl (oneCall_cons (.inr rfl) rfl ?_)
  exact oneCall_cons (.inr rfl) rfl oneCall_nil

theorem explore_improves_iff_two_replies :
    (∀ pre a post u v, worseSecond = pre ++ a :: post →
        Machine.run (step fullPool) aboutToExplore pre = some u →
        step fullPool u a = some v → Improves u a v)
      ↔ ∀ pre x post u before v, worseSecond = pre ++ .worker x :: post →
        runSeen fullPool aboutToExplore pre = some (u, before) →
        step fullPool u (.worker x) = some v →
        ∀ minChunks i c, u.worker = .explorePush minChunks i c →
        before.countP (c.availability.count ≤ ·) < u.connections.length :=
  explore_improves_iff fullPool beforeExplore worseSecond aboutToExplore rfl
    (by decide) oneCall_worseSecond

/-- The second replacement takes a connection of two chunks for one of a
single chunk: the sum and the least of the counts become smaller. -/
theorem explore_loses_chunk :
    run fullPool beforeExplore = some aboutToExplore
      ∧ aboutToExplore.connections ≠ []
      ∧ OneCall fullPool aboutToExplore worseSecond
      ∧ ∃ pre a u v, worseSecond = pre ++ [a]
        ∧ Machine.run (step fullPool) aboutToExplore pre = some u
        ∧ step fullPool u a = some v
        ∧ u.counts = [2] ∧ v.counts = [1] ∧ ¬ Improves u a v := by
  refine ⟨rfl, by decide, oneCall_worseSecond,
    [tick 16, tick 16, reply 16 5 [3], tick 16, tick 16, reply 16 6 [1]],
    tick 16, _, _, rfl, rfl, rfl, by decide, by decide, fun h => ?_⟩
  exact absurd h.sum (by decide)

end ConnectionPool

end Distfs

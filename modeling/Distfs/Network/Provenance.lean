/-
Where the pool's peers come from.

The pool hears of peers in three ways (`News`): a caller of `info_from` or
a list of `PeerExchange` names a url, the peer at a url answers an info
request, and a caller of `info_from` tells what its node has. `hears` is
the news of one action.

A step makes up nothing (`Origins`): a new candidate was named in it, a new
connection is a candidate that has answered in it with the pool's own file
system id, and an availability is replaced by one that its url has answered
or its node has told. So over any interleaving of the worker with the
handlers every connection is the bootstrap peer or has been named before it
answered, and advertises nothing but what it was said to have
(`connections_founded`).
-/
import Distfs.Network.NodeIdentity

namespace Distfs

/-- The connection the worker has made and not yet put in the list. -/
def Worker.made : Worker → List Connection
  | .expandPush _ c | .explorePush _ _ c => [c]
  | _ => []

namespace ConnectionPool

-- ============================================================== the news

/-- What a pool hears from outside. -/
inductive News where
  /-- somebody names a url -/
  | named (url : Bytes)
  /-- the peer at `url` answers an info request -/
  | answered (url : Bytes) (response : Info)
  /-- a caller of `info_from` tells what the node has -/
  | told (nId : UInt64) (availability : ChunkAvailability)

/-- Whom the worker sends an info request in its next step. -/
def asksInfo (m : Settings) (s : ConnectionPool) : Option Bytes :=
  match s.worker with
  | .info now it =>
      match s.connections[it]? with
      | some c =>
          if infoRefreshS < now - c.lastInfo then some c.url else none
      | none => none
  | .expand i =>
      if i < 5 ∧ s.activePeers.card < m.activeConnectionsLimit.toNat
          ∧ 0 < s.peerCandidates.size then
        s.peerCandidates.pop.map Prod.fst
      else none
  | .explore _ i =>
      if 0 < s.peerCandidates.size ∧ i < 10 then
        s.peerCandidates.pop.map Prod.fst
      else none
  | _ => none

/-- Whom it asks for peers. -/
def asksPeers (s : ConnectionPool) : Option Bytes :=
  match s.worker with
  | .pex now it =>
      match s.connections[it]? with
      | some c => if pexRefreshS < now - c.lastPex then some c.url else none
      | none => none
  | _ => none

/-- What the pool hears in an action. -/
def hears (m : Settings) (s : ConnectionPool) : Action → List News
  | .worker x =>
      (match s.asksInfo m, x.info with
        | some url, some response => [.answered url response]
        | _, _ => [])
        ++ match s.asksPeers, x.peers with
          | some _, some peers => peers.map .named
          | _, _ => []
  | .infoFrom peer nId availability =>
      [.named peer, .told nId availability]
  | .pexFrom _ incomingList => incomingList.map .named
  | _ => []

/-- The worker hears nothing but the answers to its requests. -/
theorem mem_hears_worker {m : Settings} {s : ConnectionPool} {x : Input}
    {news : News} (h : news ∈ s.hears m (.worker x)) :
    (∃ url, news = .named url)
      ∨ ∃ url response, news = .answered url response
        ∧ s.asksInfo m = some url ∧ x.info = some response := by
  rw [hears] at h
  rcases List.mem_append.1 h with h | h
  · split at h
    · next url response hasks hinfo =>
      exact .inr ⟨url, response, List.mem_singleton.1 h, hasks, hinfo⟩
    · cases h
  · split at h
    · obtain ⟨url, -, rfl⟩ := List.mem_map.1 h
      exact .inl ⟨url, rfl⟩
    · cases h

/-- When an action happens, if it reads the clock. -/
def Action.time : Action → Option Int
  | .worker x => some x.now
  | .infoUpdate _ now | .pexVisit _ _ now => some now
  | _ => none

/-- The pool, with all it has heard. -/
def runHearing (m : Settings) (as : List Action) :
    Option (ConnectionPool × List News) :=
  Machine.run (Machine.noted (step m) fun s heard a => heard ++ s.hears m a)
    (new m, []) as

/-- All connections, in the list or on the way there. -/
def held (s : ConnectionPool) : List Connection :=
  s.connections ++ s.worker.made

-- ============================================================ one step

section Step

variable {m : Settings} {s t : ConnectionPool} {a : Action}

/-- Where a connection after a step comes from: it is one from before,
whose availability is the old one, an answer of its url or what its node
has told, or a candidate that has answered for the same file system. -/
inductive Origin (m : Settings) (s : ConnectionPool) (a : Action)
    (c : Connection) : Prop where
  | same (d : Connection) (hd : d ∈ s.held) (hurl : c.url = d.url)
      (hnId : c.nId = d.nId) (hav : c.availability = d.availability)
      (hlast : c.lastInfo = d.lastInfo)
  | refreshed (d : Connection) (hd : d ∈ s.held) (hurl : c.url = d.url)
      (hnId : c.nId = d.nId) (response : Info)
      (hnews : .answered c.url response ∈ s.hears m a)
      (hav : c.availability = ChunkAvailability.ofBitmask response.available)
      (htime : a.time = some c.lastInfo)
  | updated (d : Connection) (hd : d ∈ s.held) (hurl : c.url = d.url)
      (hnId : c.nId = d.nId) (k : Nat) (ha : a = .infoUpdate k c.lastInfo)
      (hcall : s.calls[k]? = some (.info c.nId c.availability))
  | connected (response : Info) (hmem : c.url ∈ s.peerCandidates.data)
      (hnews : .answered c.url response ∈ s.hears m a)
      (hfs : response.fsId = m.metadata.id)
      (hc : c = connect response c.url c.lastInfo)
      (htime : a.time = some c.lastInfo)

/-- Where all that a pool has after a step comes from. -/
structure Origins (m : Settings) (s : ConnectionPool) (a : Action)
    (t : ConnectionPool) : Prop where
  coherent : t.peerCandidates.Coherent
  candidates : ∀ u ∈ t.peerCandidates.data,
    u ∈ s.peerCandidates.data ∨ .named u ∈ s.hears m a
  held : ∀ c ∈ t.held, Origin m s a c
  calls : ∀ nId availability, .info nId availability ∈ t.calls →
    .info nId availability ∈ s.calls
      ∨ .told nId availability ∈ s.hears m a

/-- A worker that has made no connection holds none. -/
theorem held_eq (h : t.worker.made = []) : t.held = t.connections := by
  rw [held, h, List.append_nil]

/-- A connection that stays as it is. -/
theorem Origin.keep {c : Connection} (hc : c ∈ s.held) :
    Origin m s a c := by
  apply Origin.same c hc <;> rfl

/-- A step that leaves the candidates and the calls as they are. -/
theorem Origins.of_held (hco : s.peerCandidates.Coherent)
    (hcand : t.peerCandidates = s.peerCandidates) (hcalls : t.calls = s.calls)
    (hheld : ∀ c ∈ t.held, Origin m s a c) : Origins m s a t := by
  refine ⟨hcand ▸ hco, fun u hu => ?_, hheld, fun nId availability h => ?_⟩
  · rw [hcand] at hu
    exact .inl hu
  · rw [hcalls] at h
    exact .inl h

/-- The candidates after a list of names. -/
theorem candidates_pushed (ps : List Bytes) :
    ∀ s : ConnectionPool, s.peerCandidates.Coherent →
      (ps.foldl pushCandidate s).peerCandidates.Coherent
        ∧ (∀ u ∈ (ps.foldl pushCandidate s).peerCandidates.data,
          u ∈ s.peerCandidates.data ∨ u ∈ ps)
        ∧ (ps.foldl pushCandidate s).held = s.held
        ∧ (ps.foldl pushCandidate s).calls = s.calls := by
  induction ps with
  | nil => exact fun s h => ⟨h, fun u hu => .inl hu, rfl, rfl⟩
  | cons p ps ih =>
      intro s h
      obtain ⟨hpush, hnew, -⟩ := OrderedSet.push_spec h p
      have hstep : (s.pushCandidate p).peerCandidates.Coherent
          ∧ (∀ u ∈ (s.pushCandidate p).peerCandidates.data,
            u = p ∨ u ∈ s.peerCandidates.data)
          ∧ (s.pushCandidate p).held = s.held
          ∧ (s.pushCandidate p).calls = s.calls := by
        rw [pushCandidate]
        split
        · exact ⟨h, fun u hu => .inr hu, rfl, rfl⟩
        · exact ⟨hpush, hnew, rfl, rfl⟩
      obtain ⟨hco, hmem, hheld, hcalls⟩ := ih _ hstep.1
      rw [List.foldl_cons]
      refine ⟨hco, fun u hu => ?_, hheld.trans hstep.2.2.1,
        hcalls.trans hstep.2.2.2⟩
      rcases hmem u hu with hu | hu
      · rcases hstep.2.1 u hu with rfl | hu
        · exact .inr List.mem_cons_self
        · exact .inl hu
      · exact .inr (List.mem_cons_of_mem _ hu)

/-- What `pop` takes was in the set. -/
theorem pop_mem {o o' : OrderedSet} (h : o.Coherent) {p : Bytes}
    (hpop : o.pop = some (p, o')) :
    o'.Coherent ∧ p ∈ o.data ∧ ∀ u ∈ o'.data, u ∈ o.data := by
  have hne : 0 < o.data.card := by
    apply Nat.pos_of_ne_zero
    intro hzero
    have hlen := h.length
    rw [OrderedSet.pop] at hpop
    cases hit : o.iterators with
    | nil =>
        rw [hit] at hpop
        cases hpop
    | cons q qs =>
        rw [hit, hzero] at hlen
        cases hlen
  obtain ⟨p', o'', hpop', hco, hmem, hdata, -⟩ := OrderedSet.pop_spec h hne
  rw [hpop, Option.some.injEq, Prod.mk.injEq] at hpop'
  obtain ⟨rfl, rfl⟩ := hpop'
  refine ⟨hco, hmem, fun u hu => ?_⟩
  rw [hdata] at hu
  exact Finset.mem_of_mem_erase hu

-- ---------------------------------------------------------- the worker

/-- A step of the worker that changes neither the candidates nor a
connection. -/
theorem Origins.move (hco : s.peerCandidates.Coherent)
    {active : Finset Bytes} {lastExplore : Int} {w : Worker}
    (hmade : w.made ⊆ s.worker.made) :
    Origins m s a { s with
      activePeers := active, lastExplore := lastExplore, worker := w } := by
  refine .of_held hco rfl rfl fun c hc => .keep ?_
  rcases List.mem_append.1 hc with hc | hc
  · exact List.mem_append_left _ hc
  · exact List.mem_append_right _ (hmade hc)

/-- A turn of `worker_get_info` makes nothing up. -/
theorem workerGetInfo_origins {now : Int} {it : Nat} {x : Input}
    (hco : s.peerCandidates.Coherent) (hw : s.worker = .info now it) :
    Origins m s (.worker x) (s.workerGetInfo now it x) := by
  rw [workerGetInfo]
  cases hc : s.connections[it]? with
  | none =>
      refine .of_held hco rfl rfl fun c hc => .keep ?_
      rw [held_eq rfl] at hc
      exact List.mem_append_left _ ((sort_perm _).mem_iff.1 hc)
  | some c =>
      dsimp only
      split
      · next hdue =>
        cases hinfo : x.info with
        | none => exact .move hco (by simp [Worker.made])
        | some response =>
            have hnews : News.answered c.url response
                ∈ s.hears m (.worker x) := by
              simp [hears, asksInfo, hw, hc, hdue, hinfo]
            refine .of_held hco rfl rfl fun d hd => ?_
            rw [held_eq rfl] at hd
            have hmem : c ∈ s.held :=
              List.mem_append_left _ (List.mem_of_getElem? hc)
            rcases List.mem_or_eq_of_mem_set hd with hd | rfl
            · exact .keep (List.mem_append_left _ hd)
            · exact .refreshed c hmem rfl rfl response hnews rfl rfl
      · exact .move hco (by simp [Worker.made])

/-- A turn of `worker_get_pex` makes nothing up. -/
theorem workerGetPex_origins {now : Int} {it : Nat} {x : Input}
    (hco : s.peerCandidates.Coherent) (hw : s.worker = .pex now it) :
    Origins m s (.worker x) (s.workerGetPex now it x) := by
  rw [workerGetPex]
  cases hc : s.connections[it]? with
  | none =>
      refine .of_held hco rfl rfl fun c hc => .keep ?_
      rw [held_eq rfl] at hc
      exact List.mem_append_left _ ((sort_perm _).mem_iff.1 hc)
  | some c =>
      dsimp only
      split
      · next hdue =>
        cases hpeers : x.peers with
        | none =>
            refine .of_held hco rfl rfl fun d hd => .keep ?_
            rw [held_eq rfl] at hd
            exact List.mem_append_left _ (List.mem_of_mem_eraseIdx hd)
        | some peers =>
            have hnews : ∀ u ∈ peers,
                News.named u ∈ s.hears m (.worker x) := fun u hu => by
              simp [hears, asksPeers, hw, hc, hdue, hpeers, hu]
            obtain ⟨hco', hcand, -, hcalls⟩ := candidates_pushed peers s hco
            refine ⟨hco', fun u hu => (hcand u hu).imp_right (hnews u),
              fun d hd => ?_, fun nId av hcall => ?_⟩
            · rw [held_eq rfl] at hd
              simp only [connections_pushCandidate] at hd
              rcases List.mem_or_eq_of_mem_set hd with hd | rfl
              · exact .keep (List.mem_append_left _ hd)
              · exact .same c
                  (List.mem_append_left _ (List.mem_of_getElem? hc))
                  rfl rfl rfl rfl
            · refine .inl ?_
              rw [← hcalls]
              exact hcall
      · exact .move hco (by simp [Worker.made])

/-- The worker has popped a candidate, and may have got its answer. -/
theorem Origins.popped {p : Bytes} {candidates : OrderedSet} {w : Worker}
    (hco : s.peerCandidates.Coherent)
    (hpop : s.peerCandidates.pop = some (p, candidates))
    (hw : ∀ c ∈ w.made, ∃ (response : Info) (now : Int),
      .answered p response ∈ s.hears m a ∧ response.fsId = m.metadata.id
        ∧ a.time = some now ∧ c = connect response p now) :
    Origins m s a
      { s with peerCandidates := candidates, worker := w } := by
  obtain ⟨hco', hmem, hsub⟩ := pop_mem hco hpop
  refine ⟨hco', fun u hu => .inl (hsub u hu), fun c hc => ?_,
    fun nId av hcall => .inl hcall⟩
  rcases List.mem_append.1 hc with hc | hc
  · exact .keep (List.mem_append_left _ hc)
  · obtain ⟨response, now, hnews, hfs, htime, rfl⟩ := hw c hc
    exact .connected response hmem hnews hfs rfl htime

/-- A turn of `worker_expand` makes nothing up. -/
theorem workerExpand_origins {i : Nat} {x : Input}
    (hco : s.peerCandidates.Coherent) (hw : s.worker = .expand i)
    (h : workerExpand m s i x = some t) :
    Origins m s (.worker x) t := by
  rw [workerExpand] at h
  split at h
  · next hloop =>
    split at h
    · cases h
    · next p candidates hpop =>
      dsimp only at h
      split at h
      · cases h
        exact .popped hco hpop fun c hc => by cases hc
      · next response hinfo =>
        split at h
        · cases h
          exact .popped hco hpop fun c hc => by cases hc
        · next hfs =>
          cases h
          refine .popped hco hpop fun c hc => ?_
          have hnews : News.answered p response
              ∈ s.hears m (.worker x) := by
            simp [hears, asksInfo, hw, hloop, hpop, hinfo]
          exact ⟨response, x.now, hnews, not_not.1 hfs, rfl,
            List.mem_singleton.1 hc⟩
  · cases h
    exact .move hco (by simp [Worker.made])

/-- A turn of `worker_explore` makes nothing up. -/
theorem workerExplore_origins {minChunks i : Nat} {x : Input}
    (hco : s.peerCandidates.Coherent)
    (hw : s.worker = .explore minChunks i)
    (h : workerExplore m s minChunks i x = some t) :
    Origins m s (.worker x) t := by
  rw [workerExplore] at h
  split at h
  · next hloop =>
    split at h
    · cases h
    · next p candidates hpop =>
      dsimp only at h
      split at h
      · cases h
        exact .popped hco hpop fun c hc => by cases hc
      · next response hinfo =>
        split at h
        · cases h
          exact .popped hco hpop fun c hc => by cases hc
        · next hfs =>
          split at h
          · cases h
            exact .popped hco hpop fun c hc => by cases hc
          · cases h
            refine .popped hco hpop fun c hc => ?_
            have hnews : News.answered p response
                ∈ s.hears m (.worker x) := by
              simp [hears, asksInfo, hw, hloop, hpop, hinfo]
            exact ⟨response, x.now, hnews, not_not.1 hfs, rfl,
              List.mem_singleton.1 hc⟩
  · cases h
    exact .move hco (by simp [Worker.made])

/-- No step of the worker makes anything up. -/
theorem workerStep_origins {x : Input} (hco : s.peerCandidates.Coherent)
    (h : workerStep m s x = some t) :
    Origins m s (.worker x) t := by
  unfold workerStep at h
  cases hw : s.worker with
  | ready turn =>
      rw [hw] at h
      cases turn with
      | explore =>
          dsimp only at h
          split at h <;> cases h <;> exact .move hco (by simp [Worker.made])
      | getInfo | getPex | expand =>
          cases h
          exact .move hco (by simp [Worker.made])
  | info now it =>
      rw [hw] at h
      cases h
      exact workerGetInfo_origins hco hw
  | infoErase now it =>
      rw [hw] at h
      cases h
      refine .of_held hco rfl rfl fun c hc => .keep ?_
      rw [held_eq rfl] at hc
      exact List.mem_append_left _ (List.mem_of_mem_eraseIdx hc)
  | pex now it =>
      rw [hw] at h
      cases h
      exact workerGetPex_origins hco hw
  | expand i =>
      rw [hw] at h
      exact workerExpand_origins hco hw h
  | expandPush i c =>
      rw [hw] at h
      cases h
      refine .of_held hco rfl rfl fun d hd => .keep ?_
      rw [held_eq rfl] at hd
      rw [held, hw]
      exact (sort_perm _).mem_iff.1 hd
  | expandInsert i p | exploreInsert minChunks i p | exploreWait minChunks =>
      rw [hw] at h
      cases h
      exact .move hco (by simp [Worker.made])
  | explore minChunks i =>
      rw [hw] at h
      exact workerExplore_origins hco hw h
  | explorePush minChunks i c =>
      rw [hw] at h
      dsimp only at h
      unfold replaceFirst at h
      cases hconn : s.connections with
      | nil =>
          rw [hconn] at h
          cases h
      | cons first rest =>
          rw [hconn] at h
          cases h
          refine .of_held hco rfl rfl fun d hd => .keep ?_
          rw [held_eq rfl] at hd
          rw [held, hw, hconn]
          have hd' := (sort_perm _).mem_iff.1 hd
          rw [List.cons_append]
          exact List.mem_cons_of_mem _ hd'

-- -------------------------------------------------------- the handlers

/-- The call of `info_from` that updates a connection. -/
theorem mem_updateFirst {nId : UInt64} {availability : ChunkAvailability}
    {now : Int} {c : Connection} (cs : List Connection)
    (hc : c ∈ (updateFirst nId availability now cs).1) :
    c ∈ cs ∨ ∃ d ∈ cs, d.nId = nId
      ∧ c = { d with availability := availability, lastInfo := now } := by
  induction cs with
  | nil => cases hc
  | cons d cs ih =>
      rw [updateFirst] at hc
      split at hc
      · next hd =>
        rcases List.mem_cons.1 hc with rfl | hc
        · exact .inr ⟨d, List.mem_cons_self, hd, rfl⟩
        · exact .inl (List.mem_cons_of_mem _ hc)
      · rcases List.mem_cons.1 hc with rfl | hc
        · exact .inl List.mem_cons_self
        · rcases ih hc with hc | ⟨e, he, hrest⟩
          · exact .inl (List.mem_cons_of_mem _ hc)
          · exact .inr ⟨e, List.mem_cons_of_mem _ he, hrest⟩

/-- The update of `info_from` is what its caller told. -/
theorem infoUpdate_origins {k : Nat} {nId : UInt64}
    {availability : ChunkAvailability} {now : Int}
    (hco : s.peerCandidates.Coherent)
    (hcall : s.calls[k]? = some (.info nId availability)) :
    Origins m s (.infoUpdate k now) { s.infoUpdate nId availability now with
      calls := s.calls.eraseIdx k } := by
  refine ⟨hco, fun u hu => .inl hu, fun c hc => ?_,
    fun n av h => .inl (List.mem_of_mem_eraseIdx h)⟩
  rcases List.mem_append.1 hc with hc | hc
  · have hmem : c ∈ (updateFirst nId availability now s.connections).1 := by
      unfold infoUpdate at hc
      dsimp only at hc
      split at hc
      · exact (sort_perm _).mem_iff.1 hc
      · exact hc
    rcases mem_updateFirst _ hmem with hc | ⟨d, hd, rfl, rfl⟩
    · exact .keep (List.mem_append_left _ hc)
    · exact .updated d (List.mem_append_left _ hd) rfl rfl k rfl hcall
  · exact .keep (List.mem_append_right _ hc)

/-- A step makes up nothing. -/
theorem step_origins (hco : s.peerCandidates.Coherent)
    (h : step m s a = some t) : Origins m s a t := by
  cases a with
  | worker x => exact workerStep_origins hco h
  | infoFrom peer nId availability =>
      rw [step] at h
      split at h
      · cases h
      · cases h
        obtain ⟨hco', hcand, hheld, hcalls⟩ := candidates_pushed [peer] s hco
        refine ⟨hco', fun u hu => ?_, fun c hc => .keep (hheld ▸ hc),
          fun n av hcall => ?_⟩
        · rcases hcand u hu with hu | hu
          · exact .inl hu
          · rw [List.mem_singleton.1 hu]
            exact .inr List.mem_cons_self
        · rcases List.mem_append.1 hcall with hcall | hcall
          · exact .inl (hcalls ▸ hcall)
          · cases List.mem_singleton.1 hcall
            exact .inr (List.mem_cons_of_mem _ List.mem_cons_self)
  | infoUpdate k now =>
      rw [step] at h
      split at h
      · cases h
      · split at h
        · next nId availability hcall =>
          cases h
          exact infoUpdate_origins hco hcall
        · cases h
  | pexFrom nId incomingList =>
      rw [step] at h
      split at h
      · cases h
      · cases h
        obtain ⟨hco', hcand, hheld, hcalls⟩ :=
          candidates_pushed incomingList s hco
        refine ⟨hco', fun u hu => ?_, fun c hc => .keep (hheld ▸ hc),
          fun n av hcall => ?_⟩
        · exact (hcand u hu).imp_right fun hu => List.mem_map_of_mem hu
        · rcases List.mem_append.1 hcall with hcall | hcall
          · exact .inl (hcalls ▸ hcall)
          · cases List.mem_singleton.1 hcall
  | pexVisit k i now =>
      rw [step] at h
      split at h
      · next nId outgoing c hcall hc =>
        split at h
        · cases h
          refine .of_held hco rfl rfl fun d hd => ?_
          rcases List.mem_append.1 hd with hd | hd
          · rcases List.mem_or_eq_of_mem_set hd with hd | rfl
            · exact .keep (List.mem_append_left _ hd)
            · exact .same c
                (List.mem_append_left _ (List.mem_of_getElem? hc)) rfl rfl
                rfl rfl
          · exact .keep (List.mem_append_right _ hd)
        · cases h
          refine ⟨hco, fun u hu => .inl hu, fun c hc => .keep hc,
            fun n av h => .inl ?_⟩
          rcases List.mem_or_eq_of_mem_set h with h | h
          · exact h
          · cases h
      · cases h
  | pexReturn k =>
      rw [step] at h
      split at h <;> cases h
      exact ⟨hco, fun u hu => .inl hu, fun c hc => .keep hc,
        fun n av h => .inl (List.mem_of_mem_eraseIdx h)⟩

end Step

-- ============================================================ all runs

/-- What the pool has heard accounts for a connection: it is the bootstrap
peer or was named before it answered for the same file system, and each
block it advertises is one its url or its node was said to have. -/
structure Founded (m : Settings) (heard : List News) (c : Connection) :
    Prop where
  peer : (m.metadata.peer ≠ [] ∧ m.metadata.bootstrapPeer = true
      ∧ c.url = m.metadata.peer ∧ c.nId = m.metadata.nodeId)
    ∨ ∃ pre response post, heard = pre ++ .answered c.url response :: post
      ∧ .named c.url ∈ pre ∧ response.fsId = m.metadata.id
      ∧ response.nodeId = c.nId
  advertised : ∀ id, c.availability.contains id = true →
    (∃ response, .answered c.url response ∈ heard
      ∧ (ChunkAvailability.ofBitmask response.available).contains id = true)
    ∨ ∃ availability, .told c.nId availability ∈ heard
      ∧ availability.contains id = true

/-- What the pool has heard accounts for all it has. -/
structure Accounted (m : Settings) (s : ConnectionPool × List News) :
    Prop where
  coherent : s.1.peerCandidates.Coherent
  candidates : ∀ u ∈ s.1.peerCandidates.data, .named u ∈ s.2
  held : ∀ c ∈ s.1.held, Founded m s.2 c
  calls : ∀ nId availability, .info nId availability ∈ s.1.calls →
    .told nId availability ∈ s.2

variable {m : Settings} {s t : ConnectionPool} {heard news : List News}

/-- A connection stays accounted for under new availabilities, as more is
heard. -/
theorem Founded.mono {c d : Connection} (h : Founded m heard d)
    (hurl : c.url = d.url) (hnId : c.nId = d.nId)
    (hadvertised : ∀ id, c.availability.contains id = true →
      d.availability.contains id = true
      ∨ (∃ response, .answered c.url response ∈ heard ++ news
        ∧ (ChunkAvailability.ofBitmask response.available).contains id = true)
      ∨ ∃ availability, .told c.nId availability ∈ heard ++ news
        ∧ availability.contains id = true) :
    Founded m (heard ++ news) c := by
  refine ⟨?_, fun id hid => ?_⟩
  · rw [hurl, hnId]
    apply h.peer.imp_right
    rintro ⟨pre, response, post, rfl, hrest⟩
    exact ⟨pre, response, post ++ news, by simp, hrest⟩
  · rcases hadvertised id hid with hid | hid
    · rw [hurl, hnId]
      rcases h.advertised id hid with ⟨response, hmem, hid⟩ | ⟨av, hmem, hid⟩
      · exact .inl ⟨response, List.mem_append_left _ hmem, hid⟩
      · exact .inr ⟨av, List.mem_append_left _ hmem, hid⟩
    · exact hid

/-- Where a connection comes from accounts for it. -/
theorem Origin.founded {a : Action} {c : Connection} (h : Origin m s a c)
    (hs : Accounted m (s, heard)) :
    Founded m (heard ++ s.hears m a) c := by
  cases h with
  | same d hd hurl hnId hav hlast =>
      refine (hs.held d hd).mono hurl hnId fun id hid => .inl ?_
      rwa [hav] at hid
  | refreshed d hd hurl hnId response hnews hav htime =>
      refine (hs.held d hd).mono hurl hnId fun id hid => .inr (.inl ?_)
      rw [hav] at hid
      exact ⟨response, List.mem_append_right _ hnews, hid⟩
  | updated d hd hurl hnId k ha hcall =>
      refine (hs.held d hd).mono hurl hnId fun id hid => .inr (.inr ?_)
      have htold := hs.calls _ _ (List.mem_of_getElem? hcall)
      exact ⟨_, List.mem_append_left _ htold, hid⟩
  | connected response hmem hnews hfs hc htime =>
      refine ⟨.inr ?_, fun id hid => .inl ?_⟩
      · obtain ⟨pre, post, heq⟩ := List.append_of_mem hnews
        refine ⟨heard ++ pre, response, post, by rw [heq]; simp,
          List.mem_append_left _ (hs.candidates _ hmem), hfs, ?_⟩
        rw [hc]
        rfl
      · rw [hc] at hid
        exact ⟨response, List.mem_append_right _ hnews, hid⟩

/-- The new pool knows the bootstrap peer at most. -/
theorem accounted_new : Accounted m (new m, []) := by
  refine ⟨OrderedSet.new_coherent _, fun u hu => ?_, fun c hc => ?_,
    fun nId av hcall => by cases hcall⟩
  · simp [new, OrderedSet.new] at hu
  · rw [held_eq rfl] at hc
    unfold new at hc
    dsimp only at hc
    split at hc
    · next hboot =>
      rw [List.mem_singleton.1 hc]
      refine ⟨.inl ⟨hboot.1, hboot.2, rfl, rfl⟩, fun id hid => ?_⟩
      simp [ChunkAvailability.contains] at hid
    · cases hc

/-- A step keeps everything accounted for. -/
theorem accounted_step {s t : ConnectionPool × List News} {a : Action}
    (hs : Accounted m s)
    (h : Machine.noted (step m) (fun s heard a => heard ++ s.hears m a) s a
      = some t) : Accounted m t := by
  obtain ⟨s, heard⟩ := s
  obtain ⟨t, heard'⟩ := t
  obtain ⟨hstep, rfl⟩ := Machine.noted_eq_some.1 h
  have horigins := step_origins hs.coherent hstep
  refine ⟨horigins.coherent, fun u hu => ?_,
    fun c hc => (horigins.held c hc).founded hs, fun nId av hcall => ?_⟩
  · rcases horigins.candidates u hu with hu | hu
    · exact List.mem_append_left _ (hs.candidates u hu)
    · exact List.mem_append_right _ hu
  · rcases horigins.calls nId av hcall with hcall | hcall
    · exact List.mem_append_left _ (hs.calls nId av hcall)
    · exact List.mem_append_right _ hcall

/-- In every state of every run: each candidate has been named by somebody,
and each connection is the bootstrap peer or was named, and answered after
that for the pool's own file system under the id it has; what it advertises
is what its url has answered or a caller of that id has told. -/
theorem connections_founded {as : List Action}
    (h : runHearing m as = some (t, heard)) :
    (∀ u ∈ t.peerCandidates.data, .named u ∈ heard)
      ∧ ∀ c ∈ t.connections, Founded m heard c := by
  have hinv := Machine.run_invariant (P := Accounted m)
    (fun _ _ _ hs hstep => accounted_step hs hstep) as _ _ accounted_new h
  exact ⟨hinv.candidates,
    fun c hc => hinv.held c (List.mem_append_left _ hc)⟩

theorem connections_founded_two_peers :
    ∃ t heard, runHearing smallPool (connectBoth 5 6) = some (t, heard)
      ∧ t.urls = [[97], [98]]
      ∧ ∀ c ∈ t.connections, Founded smallPool heard c := by
  obtain ⟨t, heard, hrun, hurls⟩ : ∃ t heard,
      runHearing smallPool (connectBoth 5 6) = some (t, heard)
        ∧ t.urls = [[97], [98]] := ⟨_, _, rfl, rfl⟩
  exact ⟨t, heard, hrun, hurls, (connections_founded hrun).2⟩

end ConnectionPool

end Distfs

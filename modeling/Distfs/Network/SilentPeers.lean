/-
Peers that fall silent leave the table.

`worker_get_info` asks every connection that was last heard of more than
`INFO_REFRESH_S` ago, and drops it if there is no answer. Between two of its
steps the handlers run, and after it the worker connects to new peers. A
`Watch` keeps the signs of life with their times, and when the last round
that has ended began.

The times of a connection are those of signs of life (`since_of_origin`).
While a round is under way the connections behind its iterator are fresh
(`Watched.visiting`), since the lock keeps the list in place; when it ends
all are, and no later step makes one older than the round
(`silent_peers_leave`).

`worker_get_info` reads the clock before it waits for the lock, and the
model has both in one step. What handlers stamp in between are times before
that step and after the round's own, so of the times of a run only those
after a round has begun are bounded by it (`ClockForward`).
-/
import Distfs.Network.Exploration
import Distfs.Network.Provenance
import Mathlib.Data.List.Induction

namespace Distfs

namespace ConnectionPool

/-- A sign of life. -/
inductive Contact where
  /-- the peer at `url` has answered an info request -/
  | answered (url : Bytes)
  /-- a call of `info_from` of node `nId` has been served -/
  | called (nId : UInt64)

/-- The sign is of this connection's url or node. -/
def Contact.about (c : Connection) : Contact → Prop
  | .answered url => url = c.url
  | .called nId => nId = c.nId

/-- The signs of life in an action, with their times. -/
def contactsIn (m : Settings) (s : ConnectionPool) :
    Action → List (Int × Contact)
  | .worker x =>
      match s.asksInfo m, x.info with
      | some url, some _ => [(x.now, .answered url)]
      | _, _ => []
  | .infoUpdate k now =>
      match s.calls[k]? with
      | some (.info nId _) => [(now, .called nId)]
      | _ => []
  | _ => []

/-- The start of the last round of `worker_get_info` that has ended. -/
def roundAfter (s : ConnectionPool) (round : Option Int) :
    Action → Option Int
  | .worker _ =>
      match s.worker with
      | .info now it =>
          if it < s.connections.length then round else some now
      | _ => round
  | _ => round

/-- What is kept of a run: the signs of life, and the start of the last
round. -/
structure Watch where
  contacts : List (Int × Contact)
  round : Option Int

/-- What is kept after an action. -/
def watch (m : Settings) (s : ConnectionPool) (w : Watch) (a : Action) :
    Watch :=
  { contacts := w.contacts ++ s.contactsIn m a
    round := s.roundAfter w.round a }

/-- The pool, with the watch. -/
def runWatching (m : Settings) (as : List Action) :
    Option (ConnectionPool × Watch) :=
  Machine.run (Machine.noted (step m) (watch m))
    (new m, { contacts := [], round := none }) as

/-- The times of a run. -/
def times (as : List Action) : List Int := as.filterMap Action.time

/-- `b` does not read an earlier time than `a`, if `a` is a step of the
worker. -/
def Action.notAfter (a b : Action) : Bool :=
  match a, b.time with
  | .worker x, some time => decide (x.now ≤ time)
  | _, _ => true

/-- A round of `worker_get_info` has begun at `now`; the actions `post` of
the run come after it. -/
def Began (m : Settings) (as : List Action) (now : Int)
    (post : List Action) : Prop :=
  ∃ pre x s, as = pre ++ .worker x :: post ∧ run m pre = some s
    ∧ s.worker = .ready .getInfo ∧ x.now = now

/-- The clock does not go back: no time read after a round has begun is
before that of the round. -/
def ClockForward (m : Settings) (as : List Action) : Prop :=
  ∀ now post, Began m as now post → ∀ time ∈ times post, now ≤ time

/-- The connection was heard of at most `INFO_REFRESH_S` before. -/
def Fresh (now : Int) (c : Connection) : Prop :=
  now - c.lastInfo ≤ infoRefreshS

section Step

variable {m : Settings} {s t : ConnectionPool} {a : Action} {c : Connection}

-- ==================================================== the times of a step

/-- The time of a connection is that of one from before, or of a sign of
life in the step. -/
theorem since_of_origin (h : Origin m s a c) :
    (∃ d ∈ s.held, c.url = d.url ∧ c.nId = d.nId ∧ c.lastInfo = d.lastInfo)
      ∨ a.time = some c.lastInfo
        ∧ ∃ sign, (c.lastInfo, sign) ∈ s.contactsIn m a ∧ sign.about c := by
  have hanswer : ∀ response, News.answered c.url response ∈ s.hears m a →
      a.time = some c.lastInfo →
      (c.lastInfo, .answered c.url) ∈ s.contactsIn m a := by
    intro response hnews htime
    cases a with
    | worker x =>
        rcases mem_hears_worker hnews with
          ⟨url, hurl⟩ | ⟨url, response', heq, hasks, hinfo⟩
        · cases hurl
        · cases heq
          have hnow : x.now = c.lastInfo := Option.some.inj htime
          simp [contactsIn, hasks, hinfo, hnow]
    | infoFrom peer nId av => cases htime
    | pexFrom nId ps => cases htime
    | infoUpdate k now | pexVisit k i now | pexReturn k => cases hnews
  cases h with
  | same d hd hurl hnId hav hlast => exact .inl ⟨d, hd, hurl, hnId, hlast⟩
  | refreshed d hd hurl hnId response hnews hav htime =>
      exact .inr ⟨htime, _, hanswer response hnews htime, rfl⟩
  | connected response hmem hnews hfs hc htime =>
      exact .inr ⟨htime, _, hanswer response hnews htime, rfl⟩
  | updated d hd hurl hnId k ha hcall =>
      refine .inr ⟨by rw [ha]; rfl, .called c.nId, ?_, rfl⟩
      rw [ha]
      simp [contactsIn, hcall]

-- =================================================== a round under way

/-- Where the iterator of `worker_get_info` is, and when the round
began. -/
def visiting (s : ConnectionPool) : Option (Int × Nat) :=
  match s.worker with
  | .info now it | .infoErase now it => some (now, it)
  | _ => none

/-- While a round is under way a handler neither moves the iterator nor
changes a time. -/
theorem handler_visiting (ha : ∀ x, a ≠ .worker x)
    (hs : s.visiting.isSome) (h : step m s a = some t) :
    t.worker = s.worker
      ∧ t.connections.map Connection.lastInfo
        = s.connections.map Connection.lastInfo := by
  refine ⟨(handler_length ha h).1, ?_⟩
  cases a with
  | worker x => exact absurd rfl (ha x)
  | infoFrom peer nId availability =>
      rw [step] at h
      split at h
      · cases h
      · cases h
        exact congrArg _ (pushCandidates_fields [peer] s).2
  | pexFrom nId incomingList =>
      rw [step] at h
      split at h
      · cases h
      · cases h
        exact congrArg _ (pushCandidates_fields incomingList s).2
  | infoUpdate k now =>
      -- the section needs the lock that the round holds
      have hlocked : s.holdsConnections = true := by
        unfold visiting at hs
        unfold holdsConnections
        split at hs
        · next hw => rw [hw]
        · next hw => rw [hw]
        · cases hs
      rw [step, hlocked] at h
      cases h
  | pexVisit k i now =>
      rw [step] at h
      split at h
      · next nId outgoing c hcall hc =>
        split at h
        · cases h
          exact map_set_same Connection.lastInfo hc rfl
        · cases h
          rfl
      · cases h
  | pexReturn k =>
      rw [step] at h
      split at h <;> cases h
      rfl

/-- Connections whose times are those of fresh ones. -/
theorem fresh_of_map {now : Int} {cs ds : List Connection}
    (hmap : cs.map Connection.lastInfo = ds.map Connection.lastInfo)
    (h : ∀ d ∈ ds, Fresh now d) : ∀ c ∈ cs, Fresh now c := by
  intro c hc
  have hmem : c.lastInfo ∈ ds.map Connection.lastInfo := by
    rw [← hmap]
    exact List.mem_map_of_mem hc
  obtain ⟨d, hd, heq⟩ := List.mem_map.1 hmem
  have hfresh := h d hd
  unfold Fresh at hfresh ⊢
  rw [← heq]
  exact hfresh

/-- A step of the worker within a round, from an iterator with only fresh
connections behind it to the next one. -/
theorem worker_visiting {x : Input} {now now' : Int} {it it' : Nat}
    (hs : s.visiting = some (now, it)) (hclock : now ≤ x.now)
    (hfresh : ∀ c ∈ s.connections.take it, Fresh now c)
    (h : workerStep m s x = some t) (ht : t.visiting = some (now', it')) :
    now' = now ∧ ∀ c ∈ t.connections.take it', Fresh now c := by
  unfold workerStep at h
  cases hw : s.worker with
  | ready turn | pex now it | expand i | expandPush i c | expandInsert i p
  | exploreWait minChunks | explore minChunks i | explorePush minChunks i c
  | exploreInsert minChunks i p =>
      rw [visiting, hw] at hs
      cases hs
  | info now₀ it₀ =>
      rw [visiting, hw] at hs
      cases hs
      rw [hw] at h
      cases h
      unfold workerGetInfo at ht ⊢
      cases hc : s.connections[it]? with
      | none =>
          rw [hc] at ht
          cases ht
      | some c =>
          rw [hc] at ht
          dsimp only at ht ⊢
          obtain ⟨hlt, hget⟩ := List.getElem?_eq_some_iff.1 hc
          split
          · next hdue =>
            rw [if_pos hdue] at ht
            cases hinfo : x.info with
            | none =>
                rw [hinfo] at ht
                cases ht
                exact ⟨rfl, hfresh⟩
            | some response =>
                rw [hinfo] at ht
                cases ht
                refine ⟨rfl, fun d hd => ?_⟩
                rw [List.take_add_one, List.take_set, List.set_eq_of_length_le
                  (List.length_take_le _ _), List.getElem?_set_self hlt] at hd
                rcases List.mem_append.1 hd with hd | hd
                · exact hfresh d hd
                · rw [Option.toList_some, List.mem_singleton] at hd
                  rw [hd]
                  unfold Fresh infoRefreshS
                  dsimp only
                  omega
          · next hdue =>
            rw [if_neg hdue] at ht
            cases ht
            refine ⟨rfl, fun d hd => ?_⟩
            rw [List.take_add_one, hc] at hd
            rcases List.mem_append.1 hd with hd | hd
            · exact hfresh d hd
            · rw [Option.toList_some, List.mem_singleton] at hd
              rw [hd]
              exact Int.not_lt.1 hdue
  | infoErase now₀ it₀ =>
      rw [visiting, hw] at hs
      cases hs
      rw [hw] at h
      cases h
      cases ht
      refine ⟨rfl, fun d hd => hfresh d ?_⟩
      rwa [List.take_eraseIdx_eq_take_of_le _ _ _ (Nat.le_refl _)] at hd

/-- A step within a round, of whatever thread. -/
theorem step_visiting {now now' : Int} {it it' : Nat}
    (hs : s.visiting = some (now, it))
    (hclock : ∀ time, a.time = some time → now ≤ time)
    (hfresh : ∀ c ∈ s.connections.take it, Fresh now c)
    (h : step m s a = some t) (ht : t.visiting = some (now', it')) :
    now' = now ∧ ∀ c ∈ t.connections.take it', Fresh now c := by
  by_cases ha : ∃ x, a = .worker x
  · obtain ⟨x, rfl⟩ := ha
    exact worker_visiting hs (hclock _ rfl) hfresh h ht
  · obtain ⟨hworker, hlast⟩ := handler_visiting (fun x hx => ha ⟨x, hx⟩)
      (by rw [hs]; rfl) h
    have hsame : t.visiting = s.visiting := by rw [visiting, hworker]; rfl
    rw [hsame, hs] at ht
    cases ht
    refine ⟨rfl, fresh_of_map ?_ hfresh⟩
    rw [List.map_take, List.map_take, hlast]

/-- `worker_get_pex` is in no round. -/
theorem visiting_workerGetPex {now : Int} {it : Nat} {x : Input} :
    (s.workerGetPex now it x).visiting = none := by
  unfold workerGetPex
  cases s.connections[it]? with
  | none => rfl
  | some c =>
      dsimp only
      split
      · cases x.peers <;> rfl
      · rfl

/-- `worker_expand` is in no round. -/
theorem visiting_workerExpand {i : Nat} {x : Input}
    (h : workerExpand m s i x = some t) : t.visiting = none := by
  unfold workerExpand at h
  unfold visiting
  grind

/-- `worker_explore` is in no round. -/
theorem visiting_workerExplore {minChunks i : Nat} {x : Input}
    (h : workerExplore m s minChunks i x = some t) : t.visiting = none := by
  unfold workerExplore at h
  unfold visiting
  grind

/-- A round begins before the first connection. -/
theorem visiting_starts {now : Int} {it : Nat} (hs : s.visiting = none)
    (h : step m s a = some t) (ht : t.visiting = some (now, it)) :
    ∃ x, a = .worker x ∧ s.worker = .ready .getInfo ∧ x.now = now
      ∧ it = 0 := by
  by_cases ha : ∃ x, a = .worker x
  · obtain ⟨x, rfl⟩ := ha
    have hstep : workerStep m s x = some t := h
    unfold workerStep at hstep
    unfold visiting at hs
    cases hw : s.worker with
    | info now it | infoErase now it =>
        rw [hw] at hs
        cases hs
    | ready turn =>
        rw [hw] at hstep
        cases turn with
        | getInfo =>
            cases hstep
            cases ht
            exact ⟨x, rfl, rfl, rfl, rfl⟩
        | getPex | expand =>
            cases hstep
            cases ht
        | explore =>
            dsimp only at hstep
            split at hstep <;> cases hstep <;> cases ht
    | pex now it =>
        rw [hw] at hstep
        cases hstep
        rw [visiting_workerGetPex] at ht
        cases ht
    | expand i =>
        rw [hw] at hstep
        rw [visiting_workerExpand hstep] at ht
        cases ht
    | expandPush i c | expandInsert i p | exploreWait minChunks
    | exploreInsert minChunks i p =>
        rw [hw] at hstep
        cases hstep
        cases ht
    | explore minChunks i =>
        rw [hw] at hstep
        rw [visiting_workerExplore hstep] at ht
        cases ht
    | explorePush minChunks i c =>
        rw [hw] at hstep
        dsimp only at hstep
        split at hstep <;> cases hstep
        cases ht
  · have hworker := (handler_length (fun x hx => ha ⟨x, hx⟩) h).1
    have hsame : t.visiting = s.visiting := by rw [visiting, hworker]; rfl
    rw [hsame, hs] at ht
    cases ht

-- ========================================================== its end

/-- The last round is the one before, or one that ends now. -/
theorem round_cases {round : Option Int} {r : Int}
    (h : s.roundAfter round a = some r) :
    round = some r ∨ ∃ x it, a = .worker x ∧ s.worker = .info r it
      ∧ s.connections.length ≤ it := by
  unfold roundAfter at h
  split at h
  · next x =>
    split at h
    · next now it hw =>
      split at h
      · exact .inl h
      · next hend =>
        cases h
        exact .inr ⟨x, it, rfl, hw, Nat.not_lt.1 hend⟩
    · exact .inl h
  · exact .inl h

/-- At the end of a round the connections are those it has visited. -/
theorem round_ends {x : Input} {now : Int} {it : Nat}
    (hw : s.worker = .info now it) (hend : s.connections.length ≤ it)
    (h : workerStep m s x = some t) :
    ∀ c ∈ t.held, c ∈ s.connections.take it := by
  intro c hc
  unfold workerStep at h
  rw [hw] at h
  cases h
  unfold workerGetInfo at hc
  rw [List.getElem?_eq_none hend] at hc
  rw [List.take_of_length_le hend]
  dsimp only at hc
  rw [held_eq rfl] at hc
  exact (sort_perm _).mem_iff.1 hc

-- ========================================================== all runs

variable {as : List Action}

/-- A round that has begun has begun one action later. -/
theorem Began.concat {now : Int} {post : List Action}
    (h : Began m as now post) (a : Action) :
    Began m (as ++ [a]) now (post ++ [a]) := by
  obtain ⟨pre, x, s, has, hrun⟩ := h
  exact ⟨pre, x, s, by rw [has, List.append_assoc, List.cons_append], hrun⟩

/-- The clock does not go back in a part of the run. -/
theorem ClockForward.of_concat (h : ClockForward m (as ++ [a])) :
    ClockForward m as := by
  intro now post hbegan time htime
  refine h now _ (hbegan.concat a) time ?_
  rw [times, List.filterMap_append]
  exact List.mem_append_left _ htime

/-- The next action is not before the rounds there were. -/
theorem ClockForward.le (h : ClockForward m (as ++ [a])) {now time : Int}
    {post : List Action} (hbegan : Began m as now post)
    (htime : a.time = some time) : now ≤ time := by
  refine h now _ (hbegan.concat a) time ?_
  rw [times, List.filterMap_append]
  exact List.mem_append_right _ (by simp [htime])

/-- A run in which nothing is before an earlier step of the worker. -/
theorem clockForward_of_pairwise (h : as.Pairwise fun a b => a.notAfter b) :
    ClockForward m as := by
  rintro now post ⟨pre, x, s, rfl, -, -, rfl⟩ time htime
  obtain ⟨b, hb, hbtime⟩ := List.mem_filterMap.1 htime
  have hlater := List.pairwise_cons.1 (List.pairwise_append.1 h).2.1
  have hxb := hlater.1 b hb
  simp only [Action.notAfter, hbtime] at hxb
  exact of_decide_eq_true hxb

/-- What the watch tells about the connections after the actions `as`. -/
structure Watched (m : Settings) (as : List Action)
    (s : ConnectionPool × Watch) : Prop where
  coherent : s.1.peerCandidates.Coherent
  contacts : ∀ c ∈ s.1.held, c.lastInfo = 0
    ∨ ∃ sign, (c.lastInfo, sign) ∈ s.2.contacts ∧ sign.about c
  round : ∀ r, s.2.round = some r →
    (∃ post, Began m as r post) ∧ ∀ c ∈ s.1.held, Fresh r c
  visiting : ∀ now it, s.1.visiting = some (now, it) →
    (∃ post, Began m as now post)
      ∧ ∀ c ∈ s.1.connections.take it, Fresh now c

variable {w w' : Watch}

/-- After a step each time is zero or that of a sign of life. -/
theorem Watched.contacts_step (hs : Watched m as (s, w))
    (horigin : Origin m s a c) :
    c.lastInfo = 0 ∨ ∃ sign,
      (c.lastInfo, sign) ∈ w.contacts ++ s.contactsIn m a ∧ sign.about c := by
  rcases since_of_origin horigin with
    ⟨d, hd, hurl, hnId, hlast⟩ | ⟨-, sign, hmem, habout⟩
  · rw [hlast]
    apply (hs.contacts d hd).imp_right
    rintro ⟨sign, hmem, habout⟩
    refine ⟨sign, List.mem_append_left _ hmem, ?_⟩
    cases sign with
    | answered url => exact Eq.trans habout hurl.symm
    | called nId => exact Eq.trans habout hnId.symm
  · exact .inr ⟨sign, List.mem_append_right _ hmem, habout⟩

/-- After a step the connections are fresh for the last round. -/
theorem Watched.round_step (hs : Watched m as (s, w))
    (hclock : ClockForward m (as ++ [a])) (h : step m s a = some t) {r : Int}
    (hr : s.roundAfter w.round a = some r) :
    (∃ post, Began m as r post) ∧ ∀ c ∈ t.held, Fresh r c := by
  rcases round_cases hr with hr | ⟨x, it, rfl, hw, hend⟩
  · obtain ⟨⟨post, hbegan⟩, hfresh⟩ := hs.round r hr
    refine ⟨⟨post, hbegan⟩, fun c hc => ?_⟩
    unfold Fresh
    rcases since_of_origin ((step_origins hs.coherent h).held c hc) with
      ⟨d, hd, -, -, hlast⟩ | ⟨htime, -⟩
    · rw [hlast]
      exact hfresh d hd
    · have hle := hclock.le hbegan htime
      unfold infoRefreshS
      omega
  · obtain ⟨hbegan, hfresh⟩ := hs.visiting r it (by
      unfold ConnectionPool.visiting
      rw [hw])
    exact ⟨hbegan, fun c hc => hfresh c (round_ends hw hend h c hc)⟩

/-- A step keeps what the watch tells, if the clock does not go back. -/
theorem watched_step (hs : Watched m as (s, w)) (hrun : run m as = some s)
    (hclock : ClockForward m (as ++ [a])) (h : step m s a = some t) :
    Watched m (as ++ [a]) (t, watch m s w a) := by
  refine ⟨(step_origins hs.coherent h).coherent, fun c hc => ?_,
    fun r hr => ?_, fun now it hat => ?_⟩
  · exact hs.contacts_step ((step_origins hs.coherent h).held c hc)
  · obtain ⟨⟨post, hbegan⟩, hfresh⟩ := hs.round_step hclock h hr
    exact ⟨⟨_, hbegan.concat a⟩, hfresh⟩
  · cases hv : s.visiting with
    | some p =>
        obtain ⟨now', it'⟩ := p
        obtain ⟨⟨post, hbegan⟩, hfresh⟩ := hs.visiting now' it' hv
        obtain ⟨rfl, hfresh'⟩ :=
          step_visiting hv (fun _ => hclock.le hbegan) hfresh h hat
        exact ⟨⟨_, hbegan.concat a⟩, hfresh'⟩
    | none =>
        obtain ⟨x, rfl, hready, hnow, rfl⟩ := visiting_starts hv h hat
        exact ⟨⟨[], as, x, s, rfl, hrun, hready, hnow⟩,
          fun c hc => by cases hc⟩

/-- The new pool. -/
theorem watched_new :
    Watched m [] (new m, { contacts := [], round := none }) := by
  refine ⟨OrderedSet.new_coherent _, fun c hc => .inl ?_,
    fun r hr => (by cases hr), fun now it hat => (by cases hat)⟩
  rw [held_eq rfl] at hc
  unfold new at hc
  dsimp only at hc
  split at hc
  · rw [List.mem_singleton.1 hc]
  · cases hc

/-- What the watch tells holds after every run. -/
theorem watched_run (as : List Action) :
    ∀ s : ConnectionPool × Watch, ClockForward m as →
      runWatching m as = some s → Watched m as s := by
  induction as using List.reverseRecOn with
  | nil =>
      intro s _ h
      cases h
      exact watched_new
  | append_singleton as a ih =>
      rintro ⟨t, w'⟩ hclock h
      obtain ⟨⟨s, w⟩, hrun, hstep⟩ := Machine.run_concat.1 h
      obtain ⟨hstep, hw⟩ := Machine.noted_eq_some.1 hstep
      have hw : watch m s w a = w' := hw
      rw [← hw]
      exact watched_step (ih _ hclock.of_concat hrun)
        ((Machine.run_noted _ _ _ _).2 ⟨w, hrun⟩) hclock hstep

/-- No peer stays in the table in silence: in every run of the worker and
the handlers under a clock that does not go back, from the end of a round of
`worker_get_info` on, each connection has given a sign of life (an answer of
its url, or a call of its node) at most `INFO_REFRESH_S` before that round
began, or later. -/
theorem silent_peers_leave (hclock : ClockForward m as)
    (h : runWatching m as = some (t, w)) {round : Int}
    (hround : w.round = some round) (hlate : infoRefreshS < round)
    (hc : c ∈ t.connections) :
    ∃ time sign, (time, sign) ∈ w.contacts ∧ sign.about c
      ∧ round - time ≤ infoRefreshS := by
  have hwatched := watched_run as _ hclock h
  have hheld : c ∈ t.held := List.mem_append_left _ hc
  have hfresh := (hwatched.round round hround).2 c hheld
  rcases hwatched.contacts c hheld with hzero | ⟨sign, hmem, habout⟩
  · unfold Fresh at hfresh
    rw [hzero, Int.sub_zero] at hfresh
    exact absurd hfresh (Int.not_le.2 hlate)
  · exact ⟨c.lastInfo, sign, hmem, habout, hfresh⟩

end Step

/-- Two peers. The first calls while the worker, with the time 11, waits for
the lock; the second is silent. -/
def oneFallsSilent : List Action :=
  connectBoth 5 6 ++ [tick 0, tick 11, .infoFrom [97] 5 { chunks := {1} },
    .infoUpdate 0 12, tick 11, tick 11, tick 11, tick 11, tick 11]

theorem silent_peers_leave_two :
    ∃ t w c, runWatching smallPool oneFallsSilent = some (t, w)
      ∧ t.connections = [c] ∧ c.url = [97] ∧ t.activePeers = {[97]}
      ∧ ∃ time sign, (time, sign) ∈ w.contacts ∧ Contact.about c sign
        ∧ 11 - time ≤ infoRefreshS := by
  obtain ⟨t, w, c, hrun, hcs, hurl, hactive, hround⟩ : ∃ t w c,
      runWatching smallPool oneFallsSilent = some (t, w)
        ∧ t.connections = [c] ∧ c.url = [97] ∧ t.activePeers = {[97]}
        ∧ w.round = some 11 := ⟨_, _, _, rfl, rfl, rfl, rfl, rfl⟩
  refine ⟨t, w, c, hrun, hcs, hurl, hactive, ?_⟩
  exact silent_peers_leave (clockForward_of_pairwise (by decide)) hrun hround
    (by decide) (by rw [hcs]; exact List.mem_singleton_self c)

end ConnectionPool

end Distfs

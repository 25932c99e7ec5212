/-
The pools of several nodes that exchange what they have.

# The system

The nodes run their pools and their handlers, each in any interleaving, and
their stores change as they like. Every `Info` message a node writes, as
the request of its worker or as the answer of `InfoExchange`, is on the
wire from then on and may arrive late, twice or never. `listens` says which
node answers under a url; under all others there are strangers, who answer
and call as they like, but do not have the node id of a node. The peers
that are named in `PeerExchange` may be anything.

# What holds

A node with a bootstrap peer was started with what `fetch_metadata` got
from the node that answers there (`Introduced`). A step of a node's pool
makes up nothing (`ConnectionPool.step_origins`), and what it hears of
another node is on the wire. So a connection under a node's url has the id
and the file system of the node, and lists just the blocks the node's store
had at some moment, but for the largest where its message cannot tell it
(`ChunkAvailability.told`, `advertised_was_had`).
-/
import Distfs.Network.DistfsService
import Distfs.Network.Provenance
import Mathlib.Data.Fintype.Basic
import Mathlib.Logic.Function.Basic

namespace Distfs

/-- What is fixed of the nodes: their settings, hashes and ports, and which
of them answers under a url. -/
structure Nodes (ι : Type) where
  settings : ι → Settings
  blockHashes : ι → List Bytes
  listenPort : ι → UInt32
  listens : Bytes → Option ι

/-- The metadata of a node, the hashes included. -/
def Nodes.metadata {ι : Type} (nodes : Nodes ι) (n : ι) : NodeMetadata :=
  { (nodes.settings n).metadata with blockHashes := nodes.blockHashes n }

/-- The pools and stores of the nodes, and all messages they have sent. -/
structure Overlay (ι : Type) where
  pools : ι → ConnectionPool
  stores : ι → ChunkStore
  wire : List (ι × InfoMessage)

namespace Overlay

open ConnectionPool (News)

/-- Who has written a message: a node, as the `k`-th one on the wire, or a
stranger. -/
inductive Message (α : Type) where
  | sent (k : Nat)
  | strange (message : α)

/-- What can happen. -/
inductive Action (ι : Type) where
  /-- the store of node `n` changes -/
  | store (n : ι) (store : ChunkStore)
  /-- node `n` writes an `Info` message -/
  | send (n : ι)
  /-- the worker of node `n` makes a step, with the answers to its requests
  if there are any -/
  | work (n : ι) (now : Int) (info : Option (Message Info))
      (peers : Option (List Bytes))
  /-- `InfoExchange` of node `n` is called -/
  | infoExchange (n : ι) (peer : Bytes) (request : Message InfoMessage)
  /-- `PeerExchange` of node `n` is called -/
  | peerExchange (n : ι) (request : PeerList)
  /-- a call at node `n` goes on -/
  | handler (n : ι) (a : ConnectionPool.Action)

/-- The action is one of a call under way. -/
def goesOn : ConnectionPool.Action → Bool
  | .infoUpdate _ _ | .pexVisit _ _ _ | .pexReturn _ => true
  | _ => false

section Step

variable {ι : Type} [Fintype ι] [DecidableEq ι] (nodes : Nodes ι)

/-- The answer to the info request of node `n`, if it can be that one. -/
def answer (s : Overlay ι) (n : ι) :
    Option (Message Info) → Option (Option Info)
  | none => some none
  | some message =>
      match (s.pools n).asksInfo (nodes.settings n), message with
      | some url, .sent k =>
          match s.wire[k]? with
          | some (j, response) =>
              if nodes.listens url = some j then some (some response.toInfo)
              else none
          | none => none
      | some url, .strange response =>
          if nodes.listens url = none then some (some response) else none
      | none, _ => none

/-- The request of a call of `InfoExchange`, if it can be that one. -/
def request (s : Overlay ι) : Message InfoMessage → Option InfoMessage
  | .sent k => s.wire[k]?.map Prod.snd
  | .strange request =>
      if ∃ j, (nodes.settings j).nodeId = request.nodeId then none
      else some request

/-- The pool of node `n` makes a step. -/
def act (s : Overlay ι) (n : ι) (a : ConnectionPool.Action) :
    Option (Overlay ι) :=
  match ConnectionPool.step (nodes.settings n) (s.pools n) a with
  | none => none
  | some pool => some { s with pools := Function.update s.pools n pool }

/-- One action; `none` if it is not possible. -/
def step (s : Overlay ι) : Action ι → Option (Overlay ι)
  | .store n store =>
      some { s with stores := Function.update s.stores n store }
  | .send n =>
      some { s with
        wire := s.wire ++ [(n, DistfsService.infoResponse (nodes.settings n)
          (nodes.listenPort n) (s.stores n))] }
  | .work n now info peers =>
      match s.answer nodes n info with
      | none => none
      | some info =>
          s.act nodes n (.worker { now := now, info := info, peers := peers })
  | .infoExchange n peer message =>
      match s.request nodes message with
      | none => none
      | some request =>
          match DistfsService.infoExchange (nodes.settings n) peer request with
          | .calls a => s.act nodes n a
          | .unavailable | .thrown => some s
  | .peerExchange n request =>
      s.act nodes n (DistfsService.peerExchange request)
  | .handler n a => if goesOn a then s.act nodes n a else none

/-- The nodes with new pools. -/
def new (stores : ι → ChunkStore) : Overlay ι :=
  { pools := fun n => .new (nodes.settings n), stores := stores, wire := [] }

/-- The nodes, with all states there were before. -/
def runPast (stores : ι → ChunkStore) (as : List (Action ι)) :
    Option (Overlay ι × List (Overlay ι)) :=
  Machine.run (Machine.noted (step nodes) fun s past _ => past ++ [s])
    (new nodes stores, []) as

end Step

-- ============================================================ one step

section Spec

variable {ι : Type} {nodes : Nodes ι} {s t : Overlay ι}

/-- What a node can hear: under the url or the node id of a node, only what
is on the wire. -/
def Permitted (nodes : Nodes ι) (s : Overlay ι) : News → Prop
  | .named _ => True
  | .answered url response => ∀ j, nodes.listens url = some j →
      ∃ message, (j, message) ∈ s.wire ∧ message.toInfo = response
  | .told nId availability => ∀ j, (nodes.settings j).nodeId = nId →
      ∃ i message, (i, message) ∈ s.wire ∧ message.nodeId = nId
        ∧ availability = ChunkAvailability.ofBitmask message.available

/-- What a step does. -/
inductive Steps [DecidableEq ι] (nodes : Nodes ι) (s t : Overlay ι) :
    Prop where
  | store (n : ι) (store : ChunkStore)
      (ht : t = { s with stores := Function.update s.stores n store })
  | send (n : ι)
      (ht : t = { s with
        wire := s.wire ++ [(n, DistfsService.infoResponse (nodes.settings n)
          (nodes.listenPort n) (s.stores n))] })
  | act (n : ι) (a : ConnectionPool.Action) (pool : ConnectionPool)
      (hstep : ConnectionPool.step (nodes.settings n) (s.pools n) a
        = some pool)
      (hnews : ∀ news ∈ (s.pools n).hears (nodes.settings n) a,
        Permitted nodes s news)
      (ht : t = { s with pools := Function.update s.pools n pool })
  | stay (ht : t = s)

theorem steps_of_act [DecidableEq ι] {n : ι} {a : ConnectionPool.Action}
    (hnews : ∀ news ∈ (s.pools n).hears (nodes.settings n) a,
      Permitted nodes s news)
    (h : s.act nodes n a = some t) : Steps nodes s t := by
  rw [act] at h
  split at h
  · cases h
  · next pool hstep =>
    cases h
    exact .act n a pool hstep hnews rfl

/-- An answer that can be that one is on the wire, if a node answers. -/
theorem answer_permitted [DecidableEq ι] {n : ι}
    {message : Option (Message Info)} {url : Bytes} {response : Info}
    (h : s.answer nodes n message = some (some response))
    (hasks : (s.pools n).asksInfo (nodes.settings n) = some url) :
    Permitted nodes s (.answered url response) := by
  intro j hj
  cases message with
  | none => cases h
  | some message =>
      cases message with
      | sent k =>
          unfold answer at h
          simp only [hasks] at h
          split at h
          · next i sent hk =>
            split at h
            · next hlistens =>
              cases h
              rw [hj] at hlistens
              cases hlistens
              exact ⟨sent, List.mem_of_getElem? hk, rfl⟩
            · cases h
          · cases h
      | strange response' =>
          unfold answer at h
          simp only [hasks, hj, reduceCtorEq, if_false] at h

/-- So is a request under the id of a node. -/
theorem request_permitted [Fintype ι] {message : Message InfoMessage}
    {request : InfoMessage}
    (h : s.request nodes message = some request) :
    Permitted nodes s (.told request.nodeId
      (ChunkAvailability.ofBitmask request.available)) := by
  intro j hj
  cases message with
  | sent k =>
      rw [Overlay.request] at h
      obtain ⟨⟨i, sent⟩, hk, rfl⟩ := Option.map_eq_some_iff.1 h
      exact ⟨i, sent, List.mem_of_getElem? hk, rfl, rfl⟩
  | strange request' =>
      rw [Overlay.request] at h
      split at h
      · cases h
      · next hno =>
        cases h
        exact absurd ⟨j, hj⟩ hno

theorem step_spec [Fintype ι] [DecidableEq ι] {a : Action ι}
    (h : step nodes s a = some t) : Steps nodes s t := by
  cases a with
  | store n store =>
      cases h
      exact .store n store rfl
  | send n =>
      cases h
      exact .send n rfl
  | work n now info peers =>
      rw [step] at h
      split at h
      · cases h
      · next answered hanswer =>
        refine steps_of_act (fun news hnews => ?_) h
        rcases ConnectionPool.mem_hears_worker hnews with
          ⟨url, rfl⟩ | ⟨url, response, rfl, hasks, hinfo⟩
        · exact trivial
        · have hinfo : answered = some response := hinfo
          rw [hinfo] at hanswer
          exact answer_permitted hanswer hasks
  | infoExchange n peer message =>
      rw [step] at h
      split at h
      · cases h
      · next request hrequest =>
        unfold DistfsService.infoExchange at h
        split at h
        · next a ha =>
          split at ha
          · cases ha
          · split at ha
            · cases ha
            · next p hp =>
              cases ha
              refine steps_of_act (fun news hnews => ?_) h
              rcases List.mem_cons.1 hnews with rfl | hnews
              · exact trivial
              · rw [List.mem_singleton.1 hnews]
                exact request_permitted hrequest
        · cases h
          exact .stay rfl
        · cases h
          exact .stay rfl
  | peerExchange n request =>
      refine steps_of_act (fun news hnews => ?_) h
      obtain ⟨url, -, rfl⟩ := List.mem_map.1 hnews
      exact trivial
  | handler n a =>
      rw [step] at h
      split at h
      · next hgoes =>
        refine steps_of_act (fun news hnews => ?_) h
        cases a with
        | infoUpdate k now | pexVisit k i now | pexReturn k => cases hnews
        | worker x | infoFrom peer nId av | pexFrom nId ps => cases hgoes
      · cases h

end Spec

-- ========================================================== the invariant

section Truth

variable {ι : Type} {nodes : Nodes ι} {s t : Overlay ι}
  {past : List (Overlay ι)}

/-- The blocks are those that the node's message tells of its store, as it
is now or was at some moment before. -/
def Had (s : Overlay ι) (past : List (Overlay ι)) (j : ι)
    (blocks : Finset UInt32) : Prop :=
  ∃ u ∈ past ++ [s],
    blocks = ChunkAvailability.told (u.stores j).available

/-- What node `n` knows of node `j` is true. -/
structure TrueTo (nodes : Nodes ι) (s : Overlay ι) (past : List (Overlay ι))
    (n j : ι) (c : Connection) : Prop where
  nId : c.nId = (nodes.settings j).nodeId
  fsId : (nodes.settings n).metadata.id = (nodes.settings j).metadata.id
  had : c.availability.chunks = ∅ ∨ Had s past j c.availability.chunks

/-- What the nodes have written and what they know is true. -/
structure Inv (nodes : Nodes ι) (s : Overlay ι × List (Overlay ι)) :
    Prop where
  wire : ∀ j message, (j, message) ∈ s.1.wire →
    message.fsId = (nodes.settings j).metadata.id
      ∧ message.nodeId = (nodes.settings j).nodeId
      ∧ Had s.1 s.2 j (ChunkAvailability.ofBitmask message.available).chunks
  coherent : ∀ n, (s.1.pools n).peerCandidates.Coherent
  calls : ∀ n nId availability,
    .info nId availability ∈ (s.1.pools n).calls →
    ∀ j, (nodes.settings j).nodeId = nId → Had s.1 s.2 j availability.chunks
  held : ∀ n, ∀ c ∈ (s.1.pools n).held, ∀ j, nodes.listens c.url = some j →
    TrueTo nodes s.1 s.2 n j c

/-- What a node had it has had ever since. -/
theorem Had.mono {j : ι} {blocks : Finset UInt32} (h : Had s past j blocks) :
    Had t (past ++ [s]) j blocks := by
  obtain ⟨u, hu, hblocks⟩ := h
  exact ⟨u, List.mem_append_left _ hu, hblocks⟩

theorem TrueTo.mono {n j : ι} {c d : Connection}
    (h : TrueTo nodes s past n j d) (hnId : c.nId = d.nId)
    (had : c.availability.chunks = d.availability.chunks
      ∨ Had t (past ++ [s]) j c.availability.chunks) :
    TrueTo nodes t (past ++ [s]) n j c := by
  refine ⟨hnId.trans h.nId, h.fsId, ?_⟩
  rcases had with heq | had
  · rw [heq]
    exact h.had.imp_right Had.mono
  · exact .inr had

/-- Messages on the wire stay true. -/
theorem Inv.wire_mono (h : Inv nodes (s, past)) {j : ι}
    {message : InfoMessage} (hmem : (j, message) ∈ s.wire) :
    message.fsId = (nodes.settings j).metadata.id
      ∧ message.nodeId = (nodes.settings j).nodeId
      ∧ Had t (past ++ [s]) j
        (ChunkAvailability.ofBitmask message.available).chunks := by
  obtain ⟨hfs, hnId, had⟩ := h.wire j message hmem
  exact ⟨hfs, hnId, had.mono⟩

/-- A step that leaves the pools as they are. -/
theorem Inv.of_pools (h : Inv nodes (s, past)) (hpools : t.pools = s.pools)
    (hwire : ∀ j message, (j, message) ∈ t.wire → (j, message) ∈ s.wire
      ∨ (message.fsId = (nodes.settings j).metadata.id
        ∧ message.nodeId = (nodes.settings j).nodeId
        ∧ Had t (past ++ [s]) j
          (ChunkAvailability.ofBitmask message.available).chunks)) :
    Inv nodes (t, past ++ [s]) := by
  refine ⟨fun j message hmem => ?_, ?_, ?_, ?_⟩
  · rcases hwire j message hmem with hmem | htrue
    · exact h.wire_mono hmem
    · exact htrue
  · rw [hpools]
    exact h.coherent
  · rw [hpools]
    exact fun n nId av hcall j hj => (h.calls n nId av hcall j hj).mono
  · rw [hpools]
    exact fun n c hc j hj => (h.held n c hc j hj).mono rfl (.inl rfl)

/-- Where a connection comes from makes it true to the node at its url. -/
theorem trueTo_of_origin (h : Inv nodes (s, past)) {n j : ι}
    {a : ConnectionPool.Action} {c : Connection}
    (hnews : ∀ news ∈ (s.pools n).hears (nodes.settings n) a,
      Permitted nodes s news)
    (horigin : ConnectionPool.Origin (nodes.settings n) (s.pools n) a c)
    (hj : nodes.listens c.url = some j) :
    TrueTo nodes t (past ++ [s]) n j c := by
  cases horigin with
  | same d hd hurl hnId hav hlast =>
      rw [hurl] at hj
      exact (h.held n d hd j hj).mono hnId (.inl (by rw [hav]))
  | refreshed d hd hurl hnId response hanswer hav htime =>
      obtain ⟨message, hmem, rfl⟩ := hnews _ hanswer j hj
      obtain ⟨-, -, had⟩ := h.wire_mono (t := t) hmem
      rw [hurl] at hj
      refine (h.held n d hd j hj).mono hnId (.inr ?_)
      rw [hav]
      exact had
  | updated d hd hurl hnId k ha hcall =>
      rw [hurl] at hj
      have hd := h.held n d hd j hj
      refine hd.mono hnId (.inr ?_)
      have hcalls := List.mem_of_getElem? hcall
      exact (h.calls n _ _ hcalls j (hnId.trans hd.nId).symm).mono
  | connected response hmem hanswer hfs hc htime =>
      obtain ⟨message, hsent, rfl⟩ := hnews _ hanswer j hj
      obtain ⟨hfs', hnId, had⟩ := h.wire_mono (t := t) hsent
      rw [hc]
      exact ⟨hnId, hfs.symm.trans hfs', .inr had⟩

/-- A node whose bootstrap peer is a node was started with the metadata
that one handed on. -/
def Introduced (nodes : Nodes ι) : Prop :=
  ∀ n j, (nodes.settings n).metadata.bootstrapPeer = true →
    nodes.listens (nodes.settings n).metadata.peer = some j →
    DistfsBootstrap.fetchMetadata (nodes.settings n).metadata.peer true
        (some (DistfsService.getMetadata (nodes.metadata j)
          (nodes.settings j).nodeId))
      = .ok (nodes.metadata n)

/-- So it knows the ids of that node. -/
theorem Introduced.ids (h : Introduced nodes) {n j : ι}
    (hboot : (nodes.settings n).metadata.bootstrapPeer = true)
    (hj : nodes.listens (nodes.settings n).metadata.peer = some j) :
    (nodes.settings n).metadata.id = (nodes.settings j).metadata.id
      ∧ (nodes.settings n).metadata.nodeId = (nodes.settings j).nodeId := by
  have hgot := h n j hboot hj
  rw [DistfsBootstrap.fetchMetadata_getMetadata] at hgot
  have heq : _ = nodes.metadata n := Except.ok.inj hgot
  have hmeta := congrArg NodeMetadata.toDistfsMetadata heq
  exact ⟨(congrArg DistfsMetadata.id hmeta).symm,
    (congrArg DistfsMetadata.nodeId hmeta).symm⟩

theorem inv_new (hintroduced : Introduced nodes)
    (stores : ι → ChunkStore) : Inv nodes (new nodes stores, []) := by
  refine ⟨fun j message hmem => (by cases hmem),
    fun n => OrderedSet.new_coherent _,
    fun n nId av hcall => (by cases hcall), fun n c hc j hj => ?_⟩
  have hc : c ∈ (ConnectionPool.new (nodes.settings n)).connections := by
    rw [← ConnectionPool.held_eq rfl]
    exact hc
  unfold ConnectionPool.new at hc
  dsimp only at hc
  split at hc
  · next hboot =>
    rw [List.mem_singleton.1 hc] at hj ⊢
    obtain ⟨hid, hnId⟩ := hintroduced.ids hboot.2 hj
    exact ⟨hnId, hid, .inl rfl⟩
  · cases hc

variable [DecidableEq ι]

/-- The pool of a node makes a step. -/
theorem Inv.act (h : Inv nodes (s, past))
    (hids : Function.Injective fun j => (nodes.settings j).nodeId) {n : ι}
    {a : ConnectionPool.Action} {pool : ConnectionPool}
    (hstep : ConnectionPool.step (nodes.settings n) (s.pools n) a = some pool)
    (hnews : ∀ news ∈ (s.pools n).hears (nodes.settings n) a,
      Permitted nodes s news)
    (ht : t = { s with pools := Function.update s.pools n pool }) :
    Inv nodes (t, past ++ [s]) := by
  have horigins := ConnectionPool.step_origins (h.coherent n) hstep
  have hself : t.pools n = pool := by
    rw [ht]
    exact Function.update_self _ _ _
  have hothers : ∀ i, i ≠ n → t.pools i = s.pools i := fun i hi => by
    rw [ht]
    exact Function.update_of_ne hi _ _
  refine ⟨fun j message hmem => ?_, fun i => ?_,
    fun i nId av hcall j hj => ?_, fun i c hc j hj => ?_⟩
  · rw [ht] at hmem
    exact h.wire_mono hmem
  · by_cases hi : i = n
    · rw [hi, hself]
      exact horigins.coherent
    · rw [hothers i hi]
      exact h.coherent i
  · by_cases hi : i = n
    · rw [hi, hself] at hcall
      rcases horigins.calls nId av hcall with hcall | hcall
      · exact (h.calls n nId av hcall j hj).mono
      · obtain ⟨k, message, hmem, hnId, rfl⟩ := hnews _ hcall j hj
        obtain ⟨-, hk, had⟩ := h.wire_mono (t := t) hmem
        have hkj : k = j := hids (hk.symm.trans (hnId.trans hj.symm))
        rw [← hkj]
        exact had
    · rw [hothers i hi] at hcall
      exact (h.calls i nId av hcall j hj).mono
  · by_cases hi : i = n
    · rw [hi, hself] at hc
      rw [hi]
      exact trueTo_of_origin h hnews (horigins.held c hc) hj
    · rw [hothers i hi] at hc
      exact (h.held i c hc j hj).mono rfl (.inl rfl)

theorem inv_step [Fintype ι]
    (hids : Function.Injective fun j => (nodes.settings j).nodeId)
    {s t : Overlay ι × List (Overlay ι)} {a : Action ι}
    (h : Inv nodes s)
    (hs : Machine.noted (step nodes) (fun s past _ => past ++ [s]) s a
      = some t) : Inv nodes t := by
  obtain ⟨s, past⟩ := s
  obtain ⟨t, past'⟩ := t
  obtain ⟨hstep, rfl⟩ := Machine.noted_eq_some.1 hs
  show Inv nodes (t, past ++ [s])
  have hspec : Steps nodes s t := step_spec hstep
  cases hspec with
  | store n store ht =>
      refine h.of_pools (by rw [ht]) fun j message hmem => .inl ?_
      rwa [ht] at hmem
  | send n ht =>
      refine h.of_pools (by rw [ht]) fun j message hmem => ?_
      rw [ht] at hmem
      rcases List.mem_append.1 hmem with hmem | hmem
      · exact .inl hmem
      · cases List.mem_singleton.1 hmem
        refine .inr ⟨rfl, rfl, s, ?_, ChunkAvailability.ofBitmask_sentMask _⟩
        simp
  | act n a pool hpool hnews ht => exact h.act hids hpool hnews ht
  | stay ht =>
      refine h.of_pools (by rw [ht]) fun j message hmem => .inl ?_
      rwa [ht] at hmem

/-- In every state of every run of the nodes, whatever strangers answer,
tell and name: a connection under the url of a node has the node's id, the
two are of the same file system, and it lists no blocks (as a bootstrap
peer not asked yet) or exactly those that were in the node's store at some
moment of the run, without the largest if that was a multiple of eight. -/
theorem advertised_was_had [Fintype ι]
    (hids : Function.Injective fun j => (nodes.settings j).nodeId)
    (hintroduced : Introduced nodes) {stores : ι → ChunkStore}
    {as : List (Action ι)}
    (h : runPast nodes stores as = some (t, past)) (n j : ι)
    {c : Connection} (hc : c ∈ (t.pools n).connections)
    (hj : nodes.listens c.url = some j) :
    c.nId = (nodes.settings j).nodeId
      ∧ (nodes.settings n).metadata.id = (nodes.settings j).metadata.id
      ∧ (c.availability.chunks = ∅
        ∨ ∃ u ∈ past ++ [t], c.availability.chunks
          = ChunkAvailability.told (u.stores j).available) := by
  have hinv := Machine.run_invariant (P := Inv nodes)
    (fun _ _ _ hs hstep => inv_step hids hs hstep) as _ _
    (inv_new hintroduced stores) h
  have htrue := hinv.held n c (List.mem_append_left _ hc) j hj
  exact ⟨htrue.nId, htrue.fsId, htrue.had⟩

end Truth

/-- Two nodes: one that serves its own store, and one that was bootstrapped
from it. -/
def twoNodes : Nodes Bool :=
  { settings := fun n =>
      { metadata := if n then
          { peer := [], bootstrapPeer := false, id := 9, nodeId := 0 }
          else { peer := [97], bootstrapPeer := true, id := 9, nodeId := 1 }
        activeConnectionsLimit := 2
        peerCandidatesLimit := 8
        nodeId := if n then 1 else 2 }
    blockHashes := fun _ => [[5], [6]]
    listenPort := fun _ => 7000
    listens := fun url => if url = [97] then some true else none }

theorem introduced_two : Introduced twoNodes := by
  intro n j hboot hj
  cases n with
  | true => cases hboot
  | false =>
      rw [DistfsBootstrap.fetchMetadata_getMetadata]
      cases hj
      rfl

/-- A store with the blocks 3 and 8. -/
def twoBlocks : ChunkStore := { ChunkStore.new 4 with inStore := {3, 8} }

/-- Node `true` writes what it has and loses it; then the other one asks it,
and gets the old answer. -/
def lateAnswer : List (Action Bool) :=
  [.send true, .store true (.new 4), .work false 1000 none none,
    .work false 1000 (some (.sent 0)) none]

theorem advertised_was_had_before :
    ∃ t past c, runPast twoNodes (fun _ => twoBlocks) lateAnswer
        = some (t, past)
      ∧ c ∈ (t.pools false).connections ∧ c.availability.chunks = {3}
      ∧ (t.stores true).available = ∅
      ∧ ∃ u ∈ past ++ [t],
        ChunkAvailability.told (u.stores true).available = {3} := by
  obtain ⟨t, past, c, hrun, hc, hurl, hgot, hnow⟩ : ∃ t past c,
      runPast twoNodes (fun _ => twoBlocks) lateAnswer = some (t, past)
      ∧ (t.pools false).connections[0]? = some c
      ∧ twoNodes.listens c.url = some true
      ∧ c.availability = ChunkAvailability.ofBitmask
        (ChunkAvailability.sentMask { chunks := twoBlocks.available })
      ∧ (t.stores true).available = ∅ :=
    ⟨_, _, _, rfl, rfl, rfl, rfl, rfl⟩
  -- block 8 is the largest: the message tells block 3 alone
  have hthree : c.availability.chunks = {3} := by
    rw [hgot, ChunkAvailability.ofBitmask_sentMask]
    decide
  obtain ⟨-, -, hempty | ⟨u, hu, had⟩⟩ := advertised_was_had
    (by decide) introduced_two hrun false true (List.mem_of_getElem? hc) hurl
  · rw [hthree] at hempty
    exact absurd hempty (by decide)
  · exact ⟨t, past, c, hrun, List.mem_of_getElem? hc, hthree, hnow, u, hu,
      had.symm.trans hthree⟩

end Overlay

end Distfs

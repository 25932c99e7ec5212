/-
The peer table of `network/connection_pool.{h,cc}`: the worker thread and
the server threads' `info_from` and `pex_from`.

# Interleaving

The pool is a machine (`step`) whose actions are the stretches of code
that run between two points where another thread can come in. The
worker's place in its four rounds is the state `Worker`; the locks it
holds there are `holdsPeers` (`peer_list_mutex`) and `holdsConnections`
(`connections_mutex`). A section under `connections_mutex` nested in a
round that holds the other lock is one action, and so is each section of
a handler. What no lock protects is split further: `worker_get_info`
erases from `active_peers` without `peer_list_mutex`, so the two erasures
are two actions, and the last loop of `pex_from` holds no lock, so each
connection it visits is one action at any time.

# Environment

Clocks, replies and failures are inputs of the actions. The request sent
to a peer is left out: the reply is arbitrary. A connection's stub is left
out as well.
-/
import Distfs.Common.OrderedSet
import Distfs.Lib.Machine
import Distfs.Network.ChunkAvailability
import Mathlib.Data.List.Sort

namespace Distfs

/-- `ConnectionPool::Connection`, without the stub. -/
structure Connection where
  availability : ChunkAvailability
  url : Bytes
  nId : UInt64
  lastInfo : Int
  lastPex : Int
  deriving DecidableEq

/-- `Connection::operator<`. -/
def Connection.less (a b : Connection) : Bool :=
  a.availability.less b.availability

/-- What the pool reads of `DistfsMetadata`. -/
structure DistfsMetadata where
  peer : Bytes
  bootstrapPeer : Bool
  id : UInt64
  nodeId : UInt64

/-- What stays fixed over the life of a pool. -/
structure Settings where
  metadata : DistfsMetadata
  activeConnectionsLimit : UInt32
  peerCandidatesLimit : UInt32
  nodeId : UInt64

/-- An `Info` message, as far as the pool reads it. -/
structure Info where
  fsId : UInt64
  nodeId : UInt64
  available : Bytes

/-- What the clock and the network give the worker in one step: the
time, and the reply to a request if it makes one. -/
structure Input where
  now : Int
  info : Option Info
  peers : Option (List Bytes)

/-- The rounds of `worker`, in their order. -/
inductive Turn where
  | getInfo
  | getPex
  | expand
  | explore
  deriving DecidableEq

/-- Where the worker is. -/
inductive Worker where
  /-- before a round, no lock held -/
  | ready (turn : Turn)
  /-- `worker_get_info`: at the head of its loop -/
  | info (now : Int) (it : Nat)
  /-- `worker_get_info`: between its two erasures -/
  | infoErase (now : Int) (it : Nat)
  /-- `worker_get_pex`: at the head of its loop -/
  | pex (now : Int) (it : Nat)
  /-- `worker_expand`: at the head of its loop -/
  | expand (i : Nat)
  /-- `worker_expand`: before its section under `connections_mutex` -/
  | expandPush (i : Nat) (connection : Connection)
  /-- `worker_expand`: before `active_peers.insert` -/
  | expandInsert (i : Nat) (p : Bytes)
  /-- `worker_explore`: before it takes `peer_list_mutex` -/
  | exploreWait (minChunks : Nat)
  /-- `worker_explore`: at the head of its loop -/
  | explore (minChunks i : Nat)
  /-- `worker_explore`: before its section under `connections_mutex` -/
  | explorePush (minChunks i : Nat) (connection : Connection)
  /-- `worker_explore`: before `active_peers.insert` -/
  | exploreInsert (minChunks i : Nat) (p : Bytes)
  deriving DecidableEq

/-- A handler call that is past its section under `peer_list_mutex`. -/
inductive Call where
  | info (nId : UInt64) (availability : ChunkAvailability)
  | pex (nId : UInt64) (outgoing : List Bytes)
  deriving DecidableEq

/-- `ConnectionPool`, with the threads that are inside it. -/
structure ConnectionPool where
  peerCandidates : OrderedSet
  activePeers : Finset Bytes
  connections : List Connection
  lastExplore : Int
  worker : Worker
  calls : List Call
  deriving DecidableEq

namespace ConnectionPool

/-- The worker holds `peer_list_mutex`. -/
def holdsPeers (s : ConnectionPool) : Bool :=
  match s.worker with
  | .ready _ | .info _ _ | .infoErase _ _ | .exploreWait _ => false
  | _ => true

/-- The worker holds `connections_mutex` from one step to the next. -/
def holdsConnections (s : ConnectionPool) : Bool :=
  match s.worker with
  | .info _ _ | .infoErase _ _ | .pex _ _ => true
  | _ => false

/-- `connections.sort()`: stable, by `operator<`. -/
def sort (connections : List Connection) : List Connection :=
  connections.insertionSort fun a b => b.less a = false

/-- The constructor. -/
def new (m : Settings) : ConnectionPool :=
  { peerCandidates := OrderedSet.new m.peerCandidatesLimit
    activePeers :=
      if m.metadata.peer ≠ [] ∧ m.metadata.bootstrapPeer = true then
        {m.metadata.peer} else ∅
    connections :=
      if m.metadata.peer ≠ [] ∧ m.metadata.bootstrapPeer = true then
        [{ availability := { chunks := ∅ }
           url := m.metadata.peer
           nId := m.metadata.nodeId
           lastInfo := 0
           lastPex := 0 }] else []
    lastExplore := 0
    worker := .ready .getInfo
    calls := [] }

/-- Push a peer to the candidates unless it is active. -/
def pushCandidate (s : ConnectionPool) (p : Bytes) : ConnectionPool :=
  if p ∈ s.activePeers then s
  else { s with peerCandidates := (s.peerCandidates.push p).2 }

-- ===================================================== the worker

/-- `worker_get_info`: one iteration of its loop, or the end of it. -/
def workerGetInfo (s : ConnectionPool) (now : Int) (it : Nat) (x : Input) :
    ConnectionPool :=
  match s.connections[it]? with
  | none =>
      { s with connections := sort s.connections, worker := .ready .getPex }
  | some c =>
      if infoRefreshS < now - c.lastInfo then
        match x.info with
        | some response =>
            { s with
              connections := s.connections.set it { c with
                availability := ChunkAvailability.ofBitmask response.available
                lastInfo := x.now }
              worker := .info now (it + 1) }
        | none =>
            { s with
              activePeers := s.activePeers.erase c.url
              worker := .infoErase now it }
      else { s with worker := .info now (it + 1) }

/-- `worker_get_pex`: one iteration of its loop, or the end of it. -/
def workerGetPex (s : ConnectionPool) (now : Int) (it : Nat) (x : Input) :
    ConnectionPool :=
  match s.connections[it]? with
  | none =>
      { s with connections := sort s.connections, worker := .ready .expand }
  | some c =>
      if pexRefreshS < now - c.lastPex then
        match x.peers with
        | some peers =>
            let s := peers.foldl pushCandidate s
            { s with
              connections := s.connections.set it { c with lastPex := x.now }
              worker := .pex now (it + 1) }
        | none =>
            { s with
              activePeers := s.activePeers.erase c.url
              connections := s.connections.eraseIdx it
              worker := .pex now it }
      else { s with worker := .pex now (it + 1) }

/-- The connection a reply is turned into. -/
def connect (response : Info) (p : Bytes) (now : Int) : Connection :=
  { availability := ChunkAvailability.ofBitmask response.available
    url := p
    nId := response.nodeId
    lastInfo := now
    lastPex := 0 }

/-- `worker_expand`: one iteration of its loop up to the section under
`connections_mutex`, or the end of the loop. -/
def workerExpand (m : Settings) (s : ConnectionPool) (i : Nat) (x : Input) :
    Option ConnectionPool :=
  if i < 5 ∧ s.activePeers.card < m.activeConnectionsLimit.toNat
      ∧ 0 < s.peerCandidates.size then
    match s.peerCandidates.pop with
    | none => none
    | some (p, peerCandidates) =>
        let s := { s with peerCandidates := peerCandidates }
        match x.info with
        | none => some { s with worker := .expand (i + 1) }
        | some response =>
            if response.fsId ≠ m.metadata.id then
              some { s with worker := .expand (i + 1) }
            else
              -- a reply under the pool's own node id is only reported
              some { s with
                worker := .expandPush i (connect response p x.now) }
  else some { s with worker := .ready .explore }

/-- `worker_explore`: one iteration of its loop up to the section under
`connections_mutex`, or the end of the loop. -/
def workerExplore (m : Settings) (s : ConnectionPool) (minChunks i : Nat)
    (x : Input) : Option ConnectionPool :=
  if 0 < s.peerCandidates.size ∧ i < 10 then
    match s.peerCandidates.pop with
    | none => none
    | some (p, peerCandidates) =>
        let s := { s with peerCandidates := peerCandidates }
        match x.info with
        | none => some { s with worker := .explore minChunks (i + 1) }
        | some response =>
            if response.fsId ≠ m.metadata.id then
              some { s with worker := .explore minChunks (i + 1) }
            else if (connect response p x.now).availability.count
                ≤ minChunks then
              some { s with worker := .explore minChunks (i + 1) }
            else
              some { s with
                worker := .explorePush minChunks (i + 1)
                  (connect response p x.now) }
  else some { s with worker := .ready .getInfo }

/-- The section of `worker_explore` that replaces the first connection.
With an empty list it erases `begin()` of it, which is undefined. -/
def replaceFirst (s : ConnectionPool) (connection : Connection) :
    Option ConnectionPool :=
  match s.connections with
  | [] => none
  | first :: rest =>
      some { s with
        activePeers := s.activePeers.erase first.url
        connections := sort (rest ++ [connection]) }

/-- One step of the worker thread. -/
def workerStep (m : Settings) (s : ConnectionPool) (x : Input) :
    Option ConnectionPool :=
  match s.worker with
  | .ready .getInfo => some { s with worker := .info x.now 0 }
  | .ready .getPex => some { s with worker := .pex x.now 0 }
  | .ready .expand => some { s with worker := .expand 0 }
  | .ready .explore =>
      if 15 < x.now - s.lastExplore then
        some { s with
          worker := .exploreWait (match s.connections with
            | [] => 0
            | c :: _ => c.availability.count) }
      else some { s with worker := .ready .getInfo }
  | .info now it => some (s.workerGetInfo now it x)
  | .infoErase now it =>
      some { s with
        connections := s.connections.eraseIdx it
        worker := .info now it }
  | .pex now it => some (s.workerGetPex now it x)
  | .expand i => workerExpand m s i x
  | .expandPush i c =>
      some { s with
        connections := sort (s.connections ++ [c])
        worker := .expandInsert i c.url }
  | .expandInsert i p =>
      some { s with
        activePeers := insert p s.activePeers
        worker := .expand (i + 1) }
  | .exploreWait minChunks => some { s with worker := .explore minChunks 0 }
  | .explore minChunks i => workerExplore m s minChunks i x
  | .explorePush minChunks i c =>
      match s.replaceFirst c with
      | none => none
      | some s => some { s with worker := .exploreInsert minChunks i c.url }
  | .exploreInsert minChunks i p =>
      some { s with
        activePeers := insert p s.activePeers
        worker := .explore minChunks i }

-- =================================================== the handlers

/-- The loop of `info_from`: update the first connection of the node. -/
def updateFirst (nId : UInt64) (availability : ChunkAvailability)
    (now : Int) : List Connection → List Connection × Bool
  | [] => ([], false)
  | c :: cs =>
      if c.nId = nId then
        ({ c with availability := availability, lastInfo := now } :: cs, true)
      else
        let r := updateFirst nId availability now cs
        (c :: r.1, r.2)

/-- `info_from`: its section under `connections_mutex`. -/
def infoUpdate (s : ConnectionPool) (nId : UInt64)
    (availability : ChunkAvailability) (now : Int) : ConnectionPool :=
  let r := updateFirst nId availability now s.connections
  { s with connections := if r.2 then sort r.1 else r.1 }

/-- What can happen next. -/
inductive Action where
  /-- one step of the worker thread -/
  | worker (x : Input)
  /-- `info_from` is called: its section under `peer_list_mutex` -/
  | infoFrom (peer : Bytes) (nId : UInt64) (availability : ChunkAvailability)
  /-- the call at `k` runs the second section of `info_from` and returns -/
  | infoUpdate (k : Nat) (now : Int)
  /-- `pex_from` is called: its section under `peer_list_mutex` -/
  | pexFrom (nId : UInt64) (incomingList : List Bytes)
  /-- the call at `k` visits connection `i` in the last loop of `pex_from` -/
  | pexVisit (k i : Nat) (now : Int)
  /-- the call of `pex_from` at `k` returns -/
  | pexReturn (k : Nat)

/-- One action; `none` when a lock, the state or undefined behaviour
rules it out. -/
def step (m : Settings) (s : ConnectionPool) : Action → Option ConnectionPool
  | .worker x => workerStep m s x
  | .infoFrom peer nId availability =>
      if s.holdsPeers then none
      else
        let s := s.pushCandidate peer
        some { s with calls := s.calls ++ [.info nId availability] }
  | .infoUpdate k now =>
      if s.holdsConnections then none
      else
        match s.calls[k]? with
        | some (.info nId availability) =>
            some { s.infoUpdate nId availability now with
              calls := s.calls.eraseIdx k }
        | _ => none
  | .pexFrom nId incomingList =>
      if s.holdsPeers then none
      else
        let s := incomingList.foldl pushCandidate s
        some { s with calls := s.calls ++ [.pex nId []] }
  | .pexVisit k i now =>
      match s.calls[k]?, s.connections[i]? with
      | some (.pex nId outgoing), some c =>
          if c.nId = nId then
            some { s with
              connections := s.connections.set i { c with lastPex := now } }
          else
            some { s with
              calls := s.calls.set k (.pex nId (outgoing ++ [c.url])) }
      | _, _ => none
  | .pexReturn k =>
      match s.calls[k]? with
      | some (.pex _ _) => some { s with calls := s.calls.eraseIdx k }
      | _ => none

/-- The state a pool is in after a list of actions. -/
def run (m : Settings) (as : List Action) : Option ConnectionPool :=
  Machine.run (step m) (new m) as

end ConnectionPool

end Distfs

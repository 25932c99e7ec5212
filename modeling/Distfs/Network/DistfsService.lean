/-
The calls of `DistfsService` besides `GetChunk`, and the bootstrap that
makes one of them (`network/distfs_service.cc`,
`network/distfs_bootstrap.cc`).

# What the handlers do to the pool

`InfoExchange` and `PeerExchange` act on the pool through `info_from` and
`pex_from`, which `ConnectionPool.step` has in sections. So a handler is
here the action it starts with. What it answers is the message of the node
(`infoResponse`), or a list of urls, which nothing here depends on.

# The metadata

`NodeMetadata` is `DistfsMetadata` with all that its two constructors
set. A node that was bootstrapped hands on what it was given
(`fetchMetadata_getMetadata`).
-/
import Distfs.Network.ConnectionPool
import Distfs.Network.DistfsMetadata

namespace Distfs

/-- `DistfsMetadata`. -/
structure NodeMetadata extends DistfsMetadata where
  blockHashes : List Bytes

/-- The metadata of a node that serves its own store: no peer, and a node
id that is never set. -/
def StoreMetadata.node (d : StoreMetadata) (unset : UInt64) : NodeMetadata :=
  { peer := [], bootstrapPeer := false, id := d.id, nodeId := unset
    blockHashes := d.blockHashes }

/-- A `Metadata` message. -/
structure MetadataMessage where
  fsId : UInt64
  nodeId : UInt64
  blockHash : List Bytes
  deriving DecidableEq

/-- An `Info` message, the port to listen on included. -/
structure InfoMessage extends Info where
  listenPort : UInt32

/-- A `PeerList` message. -/
structure PeerList where
  nodeId : UInt64
  peer : List Bytes
  deriving DecidableEq

-- ======================================================== the bootstrap

namespace DistfsService

/-- `GetMetadata`, of a node with the id `nodeId`. -/
def getMetadata (d : NodeMetadata) (nodeId : UInt64) : MetadataMessage :=
  { fsId := d.id
    nodeId := nodeId
    blockHash := d.blockHashes.foldl (fun hashes s => hashes ++ [s]) [] }

end DistfsService

namespace DistfsBootstrap

/-- `fetch_metadata`: the metadata, or the text of the exception. `reply`
is `none` if the call does not end ok. -/
def fetchMetadata (peer : Bytes) (connected : Bool)
    (reply : Option MetadataMessage) : Except String NodeMetadata :=
  if connected = false then .error "Unable to connect to specified peer"
  else
    match reply with
    | none => .error "Unable to fetch metadata"
    | some response =>
        .ok { peer := peer
              bootstrapPeer := true
              id := response.fsId
              nodeId := response.nodeId
              blockHashes := response.blockHash.foldl
                (fun hashes h => hashes ++ [h]) [] }

theorem foldl_concat (hashes acc : List Bytes) :
    hashes.foldl (fun l s => l ++ [s]) acc = acc ++ hashes := by
  induction hashes generalizing acc with
  | nil => exact (List.append_nil acc).symm
  | cons s hashes ih =>
      rw [List.foldl_cons, ih, List.append_assoc, List.singleton_append]

/-- What a node hands on is what it has. -/
theorem fetchMetadata_getMetadata (peer : Bytes) (d : NodeMetadata)
    (nodeId : UInt64) :
    fetchMetadata peer true (some (DistfsService.getMetadata d nodeId))
      = .ok { peer := peer, bootstrapPeer := true, id := d.id
              nodeId := nodeId, blockHashes := d.blockHashes } := by
  unfold fetchMetadata DistfsService.getMetadata
  simp only [foldl_concat, List.nil_append, Bool.true_eq_false, if_false]

end DistfsBootstrap

-- ==================================================== the two exchanges

namespace DistfsService

/-- `std::to_string` of a number. -/
def decimal (n : Nat) : Bytes :=
  if n = 0 then [48]
  else (Nat.digits 10 n).reverse.map fun d => UInt8.ofNat (48 + d)

/-- `find_last_of(':') + 1`: behind the last colon, zero if there is
none. -/
def behindColon (s : Bytes) : Nat :=
  s.length - (s.reverse.takeWhile (· ≠ 58)).length

/-- The url under which `InfoExchange` makes the caller known; `none` is
the exception of `substr` behind the end. -/
def returnAddress (peer : Bytes) (listenPort : UInt32) : Option Bytes :=
  let skip := if peer.take 2 = [105, 112] then 5 else 0
  if peer.length < skip then none
  else
    let peer := peer.drop skip
    some (peer.take (behindColon peer) ++ decimal listenPort.toNat)

/-- How `InfoExchange` begins. -/
inductive Exchange where
  | unavailable
  | thrown
  | calls (a : ConnectionPool.Action)

/-- `InfoExchange` up to its call of `info_from`. -/
def infoExchange (m : Settings) (peer : Bytes) (request : InfoMessage) :
    Exchange :=
  if request.fsId ≠ m.metadata.id then .unavailable
  else
    match returnAddress peer request.listenPort with
    | none => .thrown
    | some p =>
        .calls (.infoFrom p request.nodeId
          (ChunkAvailability.ofBitmask request.available))

/-- The answer of `InfoExchange`. -/
def infoResponse (m : Settings) (listenPort : UInt32) (store : ChunkStore) :
    InfoMessage :=
  { fsId := m.metadata.id
    nodeId := m.nodeId
    available := ChunkAvailability.sentMask { chunks := store.available }
    listenPort := listenPort }

/-- `PeerExchange` up to the first section of `pex_from`. -/
def peerExchange (request : PeerList) : ConnectionPool.Action :=
  .pexFrom request.nodeId request.peer

end DistfsService

end Distfs

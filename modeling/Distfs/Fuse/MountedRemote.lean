/-
A tree that is built here and mounted there.

One node builds the tree into its store and serves it. Another one asks
it for the metadata, starts with any replica (an empty store, say), and
fetches what it needs from whoever advertises it. If every call gets to a
node with the block in the end, its callbacks answer as the tree would,
with room for a single chunk (`remote_answers`). And if not, they still
give no wrong answer: a read can fail, and that is all that the peers can
bring about (`remote_never_wrong`), unless one of them answers other bytes
with the checksum of a block.
-/
import Distfs.Fuse.MountedBuild
import Distfs.Network.DistfsService
import Distfs.Network.Publication

namespace Distfs

open SourceTree ChunkBuilder DataProvider MetaFSBuilder ConnectionPool

namespace Fuse

open TreeFs

/-- A node that mounts the file system of the metadata `md`: its store is
a replica, its calls get no other bytes with the checksum of a block, and
its client is `fetch_chunk` wherever that is defined and comes back. -/
structure Remote (fails : Prop) (checksum : Bytes → Bytes)
    (published : UInt32 → Option Bytes) (md : NodeMetadata) where
  store : ChunkStore
  ios : Nat → Io
  heap : Nat → Mem
  net : Nat → UInt32 → List ConnectionPool.Round
  client : UInt32 → ChunkStore × Nat → ErrorCode × (ChunkStore × Nat)
  replica : Replica published store
  calls : ∀ n, (ios n).AllOk
  meets : Replica.Meets fails checksum md.blockHashes published heap net
  uncollided : ∀ n id, NoCollision checksum published id (net n id)
  fetches : ∀ id s r,
    fetchInto checksum md.blockHashes ios heap net id s = some r →
    client id s = r

section Remote

variable {z : Lz4} {checksum : Bytes → Bytes} {ios ios' : Nat → Io}
  {openAt : Bytes → SourceFile} {heap : Nat → Mem} {root : Bytes}
  {t : SourceTree} {s : ChunkStore} {buff : Mem} {fuel : Nat}
  {r : Built (ChunkStore × Nat)}

/-- The data provider of the node supplies what was built. -/
theorem Remote.supplies {fails : Prop} {published : UInt32 → Option Bytes}
    {md : NodeMetadata} (node : Remote fails checksum published md)
    (hz : z.Documented)
    (hchecked : Checked checksum md.blockHashes published)
    (hcompressed : Replica.Compressed z published) (heap : Nat → Mem)
    (unset : Nat → Nat) :
    Supplies fails (DataProvider.read (CompressedStore.ops z node.ios)
        node.client heap unset)
      (ChunkProvider.Caching (fun s => Replica published s.1)
        (Replica.contentOf z published))
      (Replica.contentOf z published) :=
  fun _ _ _ hp hcovers => (Replica.brings hz node.calls hchecked hcompressed
    node.meets node.uncollided node.fetches).read heap unset hcovers hp

/-- Mounting what was built: the image is loaded and any session
answered, as far as the network does not fail. -/
theorem remote_session (fails : Prop) (hm : Mountable t)
    (hbuilt : BuiltInto z ios openAt heap root t s buff fuel r)
    (hios' : ∀ n, (ios' n).AllOk) :
    ∃ d server, StoreMetadata.ofStore checksum ios' r.chunks.store.1
        = some (.ok d, server)
      ∧ ∀ (peer : Bytes) (unset nodeId : UInt64) (md : NodeMetadata),
        DistfsBootstrap.fetchMetadata peer true
          (some (DistfsService.getMetadata (d.node unset) nodeId))
            = .ok md →
        ∀ (node : Remote fails checksum r.chunks.store.1.fileOf md)
          (heap' : Nat → Mem) (unset' : Nat → Nat) (fresh : Mem)
          (cacheSize : Nat), 0 < cacheSize →
        ∃ x p, MetaFileSystem.load (CompressedStore.ops z node.ios)
            node.client heap' unset' fresh
            (.new (node.store, 0) cacheSize) = some (x, p)
          ∧ ((∃ image, x = .ok image) ∨ fails ∧ ∃ text, x = .error text)
          ∧ ∀ image, x = .ok image → ∀ (buff' : Mem) (qs : List FsRequest),
            Session.Admitted (Allowed t (contents (sourceAt openAt root)))
              (answer t (contents (sourceAt openAt root))) [] qs →
            ∃ rs mount, Session.session
                (serve (DataProvider.read (CompressedStore.ops z node.ios)
                  node.client heap' unset') image buff')
                { handles := [], provider := p } qs = some (rs, mount)
              ∧ Session.Answers (Told fails)
                (answer t (contents (sourceAt openAt root))) [] qs rs := by
  obtain ⟨-, hleaves⟩ := hbuilt.leaves hm.static hm.supported
  obtain ⟨d, server, hstore, hpublishes⟩ :=
    hbuilt.publishes checksum hm.static hm.supported hios'
  refine ⟨d, server, hstore, fun peer unset nodeId md hmd node heap' unset'
    fresh cacheSize hcache => ?_⟩
  rw [DistfsBootstrap.fetchMetadata_getMetadata, Except.ok.injEq] at hmd
  have hchecked := hpublishes.checked hbuilt.documented
  have hhashes : md.blockHashes = d.blockHashes := by rw [← hmd]; rfl
  rw [← hhashes] at hchecked
  have hdp := node.supplies hbuilt.documented hchecked
    hpublishes.compressed heap' unset'
  have hcaching : ChunkProvider.Caching
      (fun s => Replica r.chunks.store.1.fileOf s.1)
      (Replica.contentOf z r.chunks.store.1.fileOf)
      (.new (node.store, 0) cacheSize) :=
    ChunkProvider.caching_new node.replica hcache
  obtain ⟨x, p, hload, hp, hx⟩ :=
    load_supplied hdp hleaves hcaching fresh
  refine ⟨x, p, hload, hx.imp_left fun himage => ⟨_, himage⟩,
    fun image himage buff' qs hqs => ?_⟩
  rcases hx with hx | ⟨-, text, hx⟩
  · rw [hx, Except.ok.injEq] at himage
    rw [← himage]
    exact session_supplied hm hbuilt.built hleaves hdp (read_loaded fresh) hp
      buff' qs hqs
  · rw [hx] at himage
    cases himage

end Remote

/-- A node that mounts the file system another one has built answers every
session of admitted requests as the tree would, if its calls get to nodes
with the blocks. What else the peers they meet before send makes no
difference, and neither does the size of its store. -/
theorem remote_answers (z : Lz4) (checksum : Bytes → Bytes)
    (ios ios' : Nat → Io) (openAt : Bytes → SourceFile) (heap : Nat → Mem)
    (root : Bytes) (t : SourceTree) (hm : Mountable t) (s : ChunkStore)
    (buff : Mem) (fuel : Nat) (r : Built (ChunkStore × Nat))
    (hbuilt : BuiltInto z ios openAt heap root t s buff fuel r)
    (hios' : ∀ n, (ios' n).AllOk) :
    ∃ d server, StoreMetadata.ofStore checksum ios' r.chunks.store.1
        = some (.ok d, server)
      ∧ ∀ (peer : Bytes) (unset nodeId : UInt64) (md : NodeMetadata),
        DistfsBootstrap.fetchMetadata peer true
          (some (DistfsService.getMetadata (d.node unset) nodeId))
            = .ok md →
        ∀ (node : Remote False checksum r.chunks.store.1.fileOf md)
          (heap' : Nat → Mem) (unset' : Nat → Nat) (fresh : Mem)
          (cacheSize : Nat), 0 < cacheSize →
        ∃ image p, MetaFileSystem.load (CompressedStore.ops z node.ios)
            node.client heap' unset' fresh
            (.new (node.store, 0) cacheSize) = some (.ok image, p)
          ∧ ∀ (buff' : Mem) (qs : List FsRequest),
            Session.Admitted (Allowed t (contents (sourceAt openAt root)))
              (answer t (contents (sourceAt openAt root))) [] qs →
            ∃ mount, Session.session
                (serve (DataProvider.read (CompressedStore.ops z node.ios)
                  node.client heap' unset') image buff')
                { handles := [], provider := p } qs
              = some (Session.replies
                (answer t (contents (sourceAt openAt root))) [] qs,
                mount) := by
  obtain ⟨d, server, hstore, hnode⟩ :=
    remote_session False hm hbuilt hios'
  refine ⟨d, server, hstore, fun peer unset nodeId md hmd node heap' unset'
    fresh cacheSize hcache => ?_⟩
  obtain ⟨x, p, hload, hx, hsession⟩ :=
    hnode peer unset nodeId md hmd node heap' unset' fresh cacheSize hcache
  rcases hx with ⟨image, rfl⟩ | ⟨hfails, -⟩
  · refine ⟨image, p, hload, fun buff' qs hqs => ?_⟩
    obtain ⟨rs, mount, hrun, hanswers⟩ := hsession image rfl buff' qs hqs
    rw [hanswers.eq_replies fun _ _ _ => eq_of_told] at hrun
    exact ⟨mount, hrun⟩
  · exact hfails.elim

/-- A stream that is cut off after one byte. -/
def broken : Stream := { parts := [[9]], ok := false }

/-- The connections of a call that finds nobody. -/
def nobody : ConnectionPool.Round := { connections := [], draw := 0 }

/-- A call for block `id` that asks the server, unless it is gone. -/
def serverRound (server : ChunkStore) (gone : Bool) (id : UInt32) :
    ConnectionPool.Round :=
  if gone then nobody
  else (DistfsService.getChunk server {} id []).elim nobody
    fun reply => oneRound id (DistfsService.asStream reply.1)

section Server

variable {checksum : Bytes → Bytes} {published : UInt32 → Option Bytes}
  {d : StoreMetadata} {server : ChunkStore} {z : Lz4} {id : UInt32}
  (hz : z.Documented) (h : Publishes z checksum published d server)

include hz h in
/-- The server has every block. -/
theorem serverRound_serves {block : Bytes}
    (hblock : published id = some block) :
    ∃ st, connectionForBlock (serverRound server false id) id = some st
      ∧ Serves published id st := by
  obtain ⟨reply, server', hget, hserves⟩ := h.serves hz
    (show Io.AllOk {} from ⟨rfl, rfl, rfl, by simp⟩)
    (show ∀ a ∈ [], a = true by simp) hblock
  refine ⟨DistfsService.asStream reply, ?_, hserves⟩
  simp only [serverRound, hget, Option.elim_some, Bool.false_eq_true,
    if_false]
  exact connectionForBlock_oneRound id _

include hz h in
/-- It answers no other bytes. -/
theorem serverRound_uncollided {gone : Bool} {st : Stream}
    (hst : connectionForBlock (serverRound server gone id) id = some st) :
    Uncollided checksum published id st.bytes := by
  intro block hblock _
  cases gone with
  | true => cases hst
  | false =>
      obtain ⟨st', hst', hserves⟩ := serverRound_serves hz h hblock
      obtain ⟨-, hbytes⟩ := hserves.bytes fun b hb => h.length hz hb
      rw [hst', Option.some.injEq] at hst
      rw [hblock, Option.some.injEq, hst] at hbytes
      exact hbytes.symm

/-- A call that meets a peer that breaks off, and then nobody. -/
theorem fetchChunk_nobody (hashes : List Bytes) (buff : Mem) :
    (fetchChunk checksum hashes id buff [oneRound id broken, nobody]).1
      = .ret .notFound := by
  have hbroken := connectionForBlock_oneRound id broken
  rcases @fetchChunk_cons checksum hashes id buff (oneRound id broken)
      [nobody] with ⟨hnone, -⟩ | ⟨st, hst, hcase⟩
  · rw [hbroken] at hnone
    cases hnone
  · rw [hbroken, Option.some.injEq] at hst
    subst hst
    rcases hcase with ⟨hout, -⟩ | ⟨-, hacc, -⟩ | ⟨-, -, buff', heq⟩
    · exact absurd ⟨chunkSizeBytes_pos, fun hok => by cases hok⟩ hout
    · cases hacc.1
    · rw [heq]
      rfl

include hz h in
/-- A node whose calls all meet a peer that breaks off, and then a server
with the blocks, unless it is gone. -/
theorem remote_of_server {fails : Prop} (md : NodeMetadata)
    (hbroken : ∀ id, Uncollided checksum published id broken.bytes)
    (gone : Nat → Bool) (hgone : ∀ n, gone n = true → fails) :
    ∃ node : Remote fails checksum published md,
      node.store = ChunkStore.new 1 := by
  let net : Nat → UInt32 → List ConnectionPool.Round := fun n id =>
    [oneRound id broken, serverRound server (gone n) id]
  let fetch := fetchInto checksum md.blockHashes (fun _ => {})
    (fun _ _ => 0) net
  refine ⟨{ store := .new 1
            ios := fun _ => {}
            heap := fun _ _ => 0
            net := net
            client := fun id s => (fetch id s).getD (.internalError, s)
            replica := Replica.new Nat.one_pos
            calls := fun _ => ⟨rfl, rfl, rfl, by simp⟩
            meets := fun n id block hblock => ?_
            uncollided := fun n id r hr st hst => ?_
            fetches := fun id s r hr => ?_ }, rfl⟩
  · have hfirst := connectionForBlock_oneRound id broken
    cases hn : gone n with
    | false =>
        obtain ⟨st, hst, hserves⟩ := serverRound_serves hz h hblock
        rw [← hn] at hst
        refine .inl ⟨[oneRound id broken], _, [], rfl, fun q hq => ?_, st,
          hst, hserves⟩
        rw [List.mem_singleton.1 hq]
        exact ⟨broken, hfirst, chunkSizeBytes_pos⟩
    | true =>
        refine .inr ⟨hgone n hn, .notFound, ?_⟩
        show (fetchChunk checksum md.blockHashes id _
          [oneRound id broken, serverRound server (gone n) id]).1 = _
        rw [hn]
        exact fetchChunk_nobody md.blockHashes _
  · rcases List.mem_cons.1 hr with rfl | hr
    · -- the peer that breaks off
      rw [connectionForBlock_oneRound, Option.some.injEq] at hst
      rw [← hst]
      exact hbroken id
    · rw [List.mem_singleton.1 hr] at hst
      exact serverRound_uncollided hz h hst
  · show (fetch id s).getD _ = r
    rw [show fetch id s = some r from hr]
    rfl

end Server

/-- No block has the checksum of what the broken stream carries: a block
does not start like that. -/
theorem uncollided_broken {published : UInt32 → Option Bytes}
    (hcompressed : Replica.Compressed .runs published) (id : UInt32) :
    Uncollided StoreMetadata.digest published id broken.bytes := by
  intro block hblock hsame
  obtain ⟨c, hc, hfits, rfl⟩ := hcompressed id block hblock
  have hne : c ≠ [] := by
    rw [← List.length_pos_iff, hc]
    exact chunkSizeBytes_pos
  obtain ⟨x, rest, hblock, hx⟩ := Lz4.runsBlock_token hne
  rw [Lz4.runs_block hfits, hblock] at hsame
  have hfirst : (9 : UInt8) = x := congrArg (List.headD · 0) hsame
  rw [← hfirst] at hx
  exact absurd hx (by decide)

/-- The file `f` is opened, and read from its second byte on. -/
def openAndRead : List FsRequest := [.openFile [[102]] 0, .read 0 4 1]

theorem openAndRead_admitted :
    let content := contents
      (sourceAt (fun _ => StoreMetadata.twoBytes) [115])
    Session.Admitted (Allowed (MetaFileSystem.oneFile []) content)
        (answer (MetaFileSystem.oneFile []) content) [] openAndRead
      ∧ Session.replies (answer (MetaFileSystem.oneFile []) content) []
          openAndRead = [.handle 0, .bytes [105]] := by
  have hdelivered : contents (sourceAt (fun _ => StoreMetadata.twoBytes)
      [115]) = fun _ => [104, 105] := by
    funext path
    exact congrArg (Option.getD · []) (Transfer.readAll_of_progress
      chunkSizeBytes_pos { rest := [104, 105], script := [.upTo 1] }
      (show ∀ c ∈ [Transfer.Call.upTo 1], c.Progress by decide))
  simp only [hdelivered]
  refine ⟨⟨show ∀ c ∈ [[102]], Component c by decide,
    ⟨by decide, fun path _ => ?_⟩, trivial⟩, rfl⟩
  exact ⟨.inl (show 1 ≤ 2 by decide),
    show min (2 - 1) 4 < 2 ^ 31 by decide⟩

/-- The second byte of the file `f`, over a network of one server and a
peer that breaks off, through a store for one chunk. -/
theorem remote_second_byte :
    ∃ r, BuiltInto .runs (fun _ => {}) (fun _ => StoreMetadata.twoBytes)
        (fun _ _ => 0) [115] (MetaFileSystem.oneFile []) (.new 1)
        (fun _ => 0) 200 r
      ∧ ∃ md, ∃ node : Remote False StoreMetadata.digest
          r.chunks.store.1.fileOf md,
        node.store = ChunkStore.new 1 ∧ ∃ image p mount,
          MetaFileSystem.load (CompressedStore.ops .runs node.ios)
              node.client (fun _ _ => 0) (fun _ => 0) (fun _ => 0)
              (.new (node.store, 0) 1) = some (.ok image, p)
            ∧ Session.session (serve (DataProvider.read
                  (CompressedStore.ops .runs node.ios) node.client
                  (fun _ _ => 0) fun _ => 0) image fun _ => 0)
                { handles := [], provider := p } openAndRead
              = some ([.handle 0, .bytes [105]], mount) := by
  have hios : ∀ n : Nat, ((fun _ => {}) n : Io).AllOk :=
    fun _ => ⟨rfl, rfl, rfl, by simp⟩
  obtain ⟨r, hbuilt⟩ := builtInto_two_bytes
  have hm := mountable_one_file
  obtain ⟨d, server, hstore, hpublishes⟩ :=
    hbuilt.publishes StoreMetadata.digest hm.static hm.supported hios
  obtain ⟨d', server', hstore', hanswers⟩ := remote_answers .runs
    StoreMetadata.digest (fun _ => {}) (fun _ => {})
    (fun _ => StoreMetadata.twoBytes) (fun _ _ => 0) [115]
    (MetaFileSystem.oneFile []) hm (.new 1) (fun _ => 0) 200 r hbuilt hios
  rw [hstore, Option.some.injEq, Prod.mk.injEq, Except.ok.injEq] at hstore'
  rw [← hstore'.1] at hanswers
  have hmd := DistfsBootstrap.fetchMetadata_getMetadata [110] (d.node 0) 7
  obtain ⟨node, hnode⟩ : ∃ node : Remote False _ _ _, _ :=
    remote_of_server hbuilt.documented hpublishes _
      (uncollided_broken hpublishes.compressed) (fun _ => false)
      fun _ h => by cases h
  obtain ⟨image, p, hload, hsession⟩ := hanswers [110] 0 7 _ hmd node
    (fun _ _ => 0) (fun _ => 0) (fun _ => 0) 1 Nat.one_pos
  obtain ⟨hadmitted, hreplies⟩ := openAndRead_admitted
  obtain ⟨mount, hrun⟩ := hsession (fun _ => 0) openAndRead hadmitted
  rw [hreplies] at hrun
  exact ⟨r, hbuilt, _, node, hnode, image, p, mount, hload, hrun⟩

/-- Whatever the peers send, as long as the calls come back: the node
either does not start, or it answers as the tree would, but for reads
that it may fail. -/
theorem remote_never_wrong (z : Lz4) (checksum : Bytes → Bytes)
    (ios ios' : Nat → Io) (openAt : Bytes → SourceFile) (heap : Nat → Mem)
    (root : Bytes) (t : SourceTree) (hm : Mountable t) (s : ChunkStore)
    (buff : Mem) (fuel : Nat) (r : Built (ChunkStore × Nat))
    (hbuilt : BuiltInto z ios openAt heap root t s buff fuel r)
    (hios' : ∀ n, (ios' n).AllOk) :
    ∃ d server, StoreMetadata.ofStore checksum ios' r.chunks.store.1
        = some (.ok d, server)
      ∧ ∀ (peer : Bytes) (unset nodeId : UInt64) (md : NodeMetadata),
        DistfsBootstrap.fetchMetadata peer true
          (some (DistfsService.getMetadata (d.node unset) nodeId))
            = .ok md →
        ∀ (node : Remote True checksum r.chunks.store.1.fileOf md)
          (heap' : Nat → Mem) (unset' : Nat → Nat) (fresh : Mem)
          (cacheSize : Nat), 0 < cacheSize →
        ∃ x p, MetaFileSystem.load (CompressedStore.ops z node.ios)
            node.client heap' unset' fresh
            (.new (node.store, 0) cacheSize) = some (x, p)
          ∧ ∀ image, x = .ok image → ∀ (buff' : Mem) (qs : List FsRequest),
            Session.Admitted (Allowed t (contents (sourceAt openAt root)))
              (answer t (contents (sourceAt openAt root))) [] qs →
            ∃ rs mount, Session.session
                (serve (DataProvider.read (CompressedStore.ops z node.ios)
                  node.client heap' unset') image buff')
                { handles := [], provider := p } qs = some (rs, mount)
              ∧ Session.Answers (Told True)
                (answer t (contents (sourceAt openAt root))) [] qs rs := by
  obtain ⟨d, server, hstore, hnode⟩ :=
    remote_session True hm hbuilt hios'
  refine ⟨d, server, hstore, fun peer unset nodeId md hmd node heap' unset'
    fresh cacheSize hcache => ?_⟩
  obtain ⟨x, p, hload, -, hsession⟩ :=
    hnode peer unset nodeId md hmd node heap' unset' fresh cacheSize hcache
  exact ⟨x, p, hload, hsession⟩

/-- The server is gone in every other call. If the node starts, it opens
the file, and gives the second byte or an error. -/
theorem remote_second_byte_or_error :
    ∃ r, BuiltInto .runs (fun _ => {}) (fun _ => StoreMetadata.twoBytes)
        (fun _ _ => 0) [115] (MetaFileSystem.oneFile []) (.new 1)
        (fun _ => 0) 200 r
      ∧ ∃ md, ∃ node : Remote True StoreMetadata.digest
          r.chunks.store.1.fileOf md,
        node.store = ChunkStore.new 1 ∧ ∃ x p,
          MetaFileSystem.load (CompressedStore.ops .runs node.ios)
              node.client (fun _ _ => 0) (fun _ => 0) (fun _ => 0)
              (.new (node.store, 0) 1) = some (x, p)
            ∧ ∀ image, x = .ok image → ∃ reply mount,
              Session.session (serve (DataProvider.read
                  (CompressedStore.ops .runs node.ios) node.client
                  (fun _ _ => 0) fun _ => 0) image fun _ => 0)
                { handles := [], provider := p } openAndRead
              = some ([.handle 0, reply], mount)
                ∧ (reply = .bytes [105] ∨ reply = .error (-eacces)) := by
  have hios : ∀ n : Nat, ((fun _ => {}) n : Io).AllOk :=
    fun _ => ⟨rfl, rfl, rfl, by simp⟩
  obtain ⟨r, hbuilt⟩ := builtInto_two_bytes
  have hm := mountable_one_file
  obtain ⟨d, server, hstore, hpublishes⟩ :=
    hbuilt.publishes StoreMetadata.digest hm.static hm.supported hios
  obtain ⟨d', server', hstore', hanswers⟩ := remote_never_wrong .runs
    StoreMetadata.digest (fun _ => {}) (fun _ => {})
    (fun _ => StoreMetadata.twoBytes) (fun _ _ => 0) [115]
    (MetaFileSystem.oneFile []) hm (.new 1) (fun _ => 0) 200 r hbuilt hios
  rw [hstore, Option.some.injEq, Prod.mk.injEq, Except.ok.injEq] at hstore'
  rw [← hstore'.1] at hanswers
  have hmd := DistfsBootstrap.fetchMetadata_getMetadata [110] (d.node 0) 7
  obtain ⟨node, hnode⟩ : ∃ node : Remote True _ _ _, _ :=
    remote_of_server hbuilt.documented hpublishes _
      (uncollided_broken hpublishes.compressed) (fun n => n % 2 = 1)
      fun _ _ => trivial
  obtain ⟨x, p, hload, hsession⟩ := hanswers [110] 0 7 _ hmd node
    (fun _ _ => 0) (fun _ => 0) (fun _ => 0) 1 Nat.one_pos
  refine ⟨r, hbuilt, _, node, hnode, x, p, hload, fun image himage => ?_⟩
  obtain ⟨hadmitted, hreplies⟩ := openAndRead_admitted
  obtain ⟨rs, mount, hrun, htold⟩ :=
    hsession image himage (fun _ => 0) openAndRead hadmitted
  match rs, htold with
  | [r₁, r₂], ⟨hfirst, hsecond, _⟩ =>
    have hopened : r₁ = .handle 0 := by
      rcases hfirst with hfirst | ⟨-, -, handle, size, offset, hread⟩
      · exact hfirst
      · cases hread
    refine ⟨r₂, mount, by rw [hrun, hopened], hsecond.imp ?_ fun h => h.2.1⟩
    intro hsame
    have hreply := congrArg (fun l => l[1]?) hreplies
    exact hsame.trans (Option.some.inj hreply)

end Fuse

end Distfs

/-
What a build leaves is published by the node that serves it.

The metadata of the node lists the checksum of every block in the store,
and making it has read the store without changing a file. So the node has
all the blocks, and answers every call for one (`Publishes.serves`).
-/
import Distfs.Network.DistfsMetadata
import Distfs.Network.Replica

namespace Distfs

open MetaFSBuilder ChunkBuilder SourceTree

namespace StoreMetadata

variable {checksum : Bytes → Bytes} {ios : Nat → Io} {last : Nat}
  {s t : ChunkStore} {used old : List UInt32}

/-- Reading the chunks of a store removes none. -/
theorem readHashes_keeps (hios : ∀ n, (ios n).AllOk) (n : Nat) :
    ∀ (i : Nat) (s : ChunkStore) (used : List UInt32)
      (hashes : List Bytes), Roomy last s used old →
      (∀ id block, s.fileOf id = some block →
        block.length ≤ chunkSizeBytes) →
      readHashes checksum ios n i s = some (.ok hashes, t) →
      (∃ used', Roomy last t used' old) ∧ ∀ id, t.fileOf id = s.fileOf id := by
  induction n with
  | zero =>
      intro i s used hashes h _ hread
      cases hread
      exact ⟨⟨used, h⟩, fun _ => rfl⟩
  | succ n ih =>
      intro i s used hashes h hlen hread
      rw [readHashes] at hread
      cases hfile : s.fileOf (UInt32.ofNat i) with
      | none =>
          have hnone : s.readChunk (ios i) (UInt32.ofNat i)
              = some (.error .notFound, s) := by
            simp only [ChunkStore.readChunk, (hios i).openOk, hfile,
              Bool.false_eq_true, if_false]
          simp only [hnone] at hread
          cases hread
      | some block =>
          obtain ⟨s', hchunk, h', hsame⟩ :=
            h.read (hios i) hfile (hlen _ _ hfile)
          simp only [hchunk] at hread
          split at hread
          · cases hread
          · cases hread
          · next hashes' t' hrest =>
            cases hread
            obtain ⟨hroomy, hfiles⟩ := ih (i + 1) s' _ hashes' h'
              (fun id b hb => hlen id b (by rw [← hsame]; exact hb)) hrest
            exact ⟨hroomy, fun id => (hfiles id).trans (hsame id)⟩

theorem ofStore_keeps {d : StoreMetadata} (hios : ∀ n, (ios n).AllOk)
    (h : Roomy last s used old)
    (hlen : ∀ id block, s.fileOf id = some block →
      block.length ≤ chunkSizeBytes)
    (hstore : ofStore checksum ios s = some (.ok d, t)) :
    (∃ used', Roomy last t used' old) ∧ ∀ id, t.fileOf id = s.fileOf id := by
  unfold ofStore at hstore
  split at hstore
  · cases hstore
  · cases hstore
  · next hashes t' hread =>
    cases hstore
    exact readHashes_keeps hios _ 0 s used hashes h hlen hread

theorem ofStore_id {d : StoreMetadata}
    (hstore : ofStore checksum ios s = some (.ok d, t)) :
    d.id = hashId d.blockHashes := by
  unfold ofStore at hstore
  split at hstore
  · cases hstore
  · cases hstore
  · cases hstore
    rfl

end StoreMetadata

/-- A node with the metadata `d` has all of the published blocks in its
store, and room for them. -/
structure Publishes (z : Lz4) (checksum : Bytes → Bytes)
    (published : UInt32 → Option Bytes) (d : StoreMetadata)
    (server : ChunkStore) : Prop where
  id : d.id = StoreMetadata.hashId d.blockHashes
  compressed : Replica.Compressed z published
  hash : ∀ id block, published id = some block →
    d.blockHashes[id.toNat]? = some (checksum block)
  listed : ∀ id, id.toNat < d.blockHashes.length →
    ∃ block, published id = some block
  replica : Replica published server
  holds : ∀ id block, published id = some block →
    server.fileOf id = some block
  roomy : ∃ last used old, Roomy last server used old

namespace Publishes

variable {z : Lz4} {checksum : Bytes → Bytes}
  {published : UInt32 → Option Bytes} {d : StoreMetadata}
  {server : ChunkStore} {id : UInt32} {block : Bytes}

theorem length (h : Publishes z checksum published d server)
    (hz : z.Documented) (hblock : published id = some block) :
    block.length ≤ chunkSizeBytes := by
  obtain ⟨c, -, -, rfl⟩ := h.compressed id block hblock
  exact CompressedStore.length_compress_le hz c

theorem checked (h : Publishes z checksum published d server)
    (hz : z.Documented) :
    ConnectionPool.Checked checksum d.blockHashes published :=
  ⟨fun _ _ hblock => h.length hz hblock, h.hash, h.listed⟩

/-- A call for a published block is answered with the block. -/
theorem serves (h : Publishes z checksum published d server)
    (hz : z.Documented) {io : Io} (hio : io.AllOk) {accepts : List Bool}
    (haccepts : ∀ a ∈ accepts, a = true)
    (hblock : published id = some block) :
    ∃ reply server', DistfsService.getChunk server io id accepts
        = some (reply, server')
      ∧ ConnectionPool.Serves published id
        (DistfsService.asStream reply) := by
  have hfile := h.holds id block hblock
  obtain ⟨server', hread, -⟩ :=
    h.replica.readChunk hio hfile (h.length hz hblock)
  have hget : DistfsService.getChunk server io id accepts
      = some (DistfsService.sendParts block 0 accepts, server') := by
    simp only [DistfsService.getChunk, hread]
  exact ⟨_, server', hget, server, server', io, accepts, _, block, hblock,
    h.replica.coherent, hio, haccepts, hfile, hget, rfl⟩

end Publishes

-- ========================================================= after a build

section Build

variable {z : Lz4} {ios ios' : Nat → Io}
  {openAt : Bytes → SourceFile} {heap : Nat → Mem} {root : Bytes}
  {t : SourceTree} {s : ChunkStore} {buff : Mem} {fuel : Nat}
  {r : Built (ChunkStore × Nat)}

/-- A build into an empty store with room for the chunks, all calls
succeeding, of chunks that fit. -/
structure BuiltInto (z : Lz4) (ios : Nat → Io) (openAt : Bytes → SourceFile)
    (heap : Nat → Mem) (root : Bytes) (t : SourceTree) (s : ChunkStore)
    (buff : Mem) (fuel : Nat) (r : Built (ChunkStore × Nat)) : Prop where
  documented : z.Documented
  calls : ∀ n, (ios n).AllOk
  sound : ∀ path s, Named t path s → s.isReg = true →
    Sound (sourceAt openAt root path)
  empty : s.IsEmpty
  room : chunkCount t (sourceAt openAt root) ≤ s.collector.size
  few : chunkCount t (sourceAt openAt root) < 2 ^ 32
  built : build (CompressedStore.ops z ios) openAt fuel heap root t
    (new (s, 0) buff) = some r
  fits : ∀ b ∈ chunksWritten (CompressedStore.ops z ios) openAt fuel heap
    root t (s, 0) buff, z.Fits b chunkSizeBytes

namespace BuiltInto

variable (h : BuiltInto z ios openAt heap root t s buff fuel r)

include h in
theorem totalLen_lt :
    totalLen t (sourceAt openAt root) < 2 ^ 32 * chunkSizeBytes := by
  have hfew := h.few
  rw [chunkCount] at hfew
  exact (Nat.div_lt_iff_lt_mul chunkSizeBytes_pos).1 (Nat.lt_of_succ_lt hfew)

include h in
/-- The image and the files are in the chunks. -/
theorem leaves (hstatic : Static t) (hsup : t.supported = true) :
    CompressedStore.Ready z
        (totalLen t (sourceAt openAt root) / chunkSizeBytes) r.chunks.store
      ∧ Leaves (CompressedStore.view z r.chunks.store) t
        (sourceAt openAt root) r := by
  have hroom := h.room
  rw [chunkCount] at hroom
  refine leaves_of_kept (CompressedStore.keeps h.documented h.calls _)
    hstatic.found hsup (CompressedStore.ready_of_isEmpty h.empty hroom 0)
    (fun id => ?_) h.built h.fits (Nat.le_of_lt h.totalLen_lt)
    (Nat.le_refl _)
  rw [CompressedStore.view, h.empty.files]
  rfl

include h in
/-- The blocks in the store are those of the first ids, without a gap. -/
theorem blocks (hstatic : Static t) (hsup : t.supported = true) (id : UInt32) :
    (r.chunks.store.1.fileOf id).isSome
      ↔ id.toNat < chunkCount t (sourceAt openAt root) := by
  have hroom := h.room
  rw [chunkCount] at hroom
  obtain ⟨-, -, hall⟩ := gapless_of_kept
    (CompressedStore.keeps h.documented h.calls _) hstatic.found hsup
    (CompressedStore.ready_of_isEmpty h.empty hroom 0)
    (fun id => by rw [CompressedStore.view, h.empty.files]; rfl) h.built
    h.fits h.totalLen_lt h.sound rfl
  have hid := hall id
  rw [CompressedStore.view, Option.isSome_map] at hid
  exact hid.trans Nat.lt_succ_iff.symm

include h in
/-- The node that serves the store publishes its blocks. -/
theorem publishes (checksum : Bytes → Bytes) (hstatic : Static t)
    (hsup : t.supported = true) (hios' : ∀ n, (ios' n).AllOk) :
    ∃ d server, StoreMetadata.ofStore checksum ios' r.chunks.store.1
        = some (.ok d, server)
      ∧ Publishes z checksum r.chunks.store.1.fileOf d server := by
  obtain ⟨hready, -⟩ := h.leaves hstatic hsup
  obtain ⟨used, old, hroomy⟩ := hready.roomy
  have hblocks := h.blocks hstatic hsup
  have hlen : ∀ id block, r.chunks.store.1.fileOf id = some block →
      block.length ≤ chunkSizeBytes := by
    intro id block hblock
    obtain ⟨c, -, -, rfl⟩ := hready.whole id block hblock
    exact CompressedStore.length_compress_le h.documented c
  obtain ⟨d, server, hstore, hlength, hget⟩ :=
    @StoreMetadata.ofStore_ok checksum ios' _ _ _ _ hios' hroomy _ h.few
      (fun id => (hroomy.listed id).trans (hblocks id)) hlen
  obtain ⟨⟨used', hroomy'⟩, hsame⟩ :=
    StoreMetadata.ofStore_keeps hios' hroomy hlen hstore
  refine ⟨d, server, hstore, StoreMetadata.ofStore_id hstore, hready.whole,
    fun id block hblock => ?_, fun id hid => ?_,
    ⟨hroomy'.tracks.coherent, ?_, fun id block hfile => ?_⟩,
    fun id block hblock => ?_, ⟨_, used', old, hroomy'⟩⟩
  · have hid := (hblocks id).1 (by rw [hblock]; rfl)
    rw [hget id.toNat hid, UInt32.ofNat_toNat, hblock]
    rfl
  · exact Option.isSome_iff_exists.1 ((hblocks id).2 (by omega))
  · exact Nat.lt_of_le_of_lt (Nat.zero_le _) hroomy'.size
  · rw [← hsame]
    exact hfile
  · rw [hsame]
    exact hblock

end BuiltInto

/-- One file of two bytes, built into a store for one chunk. -/
theorem builtInto_two_bytes :
    ∃ r, BuiltInto .runs (fun _ => {}) (fun _ => StoreMetadata.twoBytes)
      (fun _ _ => 0) [115] (MetaFileSystem.oneFile []) (.new 1) (fun _ => 0)
      200 r := by
  have hsound : ∀ path s, Named (MetaFileSystem.oneFile []) path s →
      s.isReg = true →
      Sound (sourceAt (fun _ => StoreMetadata.twoBytes) [115] path) := by
    intro path s _ _ c hc
    rw [List.mem_singleton.1 hc]
    exact Nat.one_pos
  have hcount : chunkCount (MetaFileSystem.oneFile [])
      (sourceAt (fun _ => StoreMetadata.twoBytes) [115]) = 1 := by decide
  obtain ⟨r, hbuild, hfits⟩ := StoreMetadata.build_two_bytes
  exact ⟨r, Lz4.runs_documented, fun _ => ⟨rfl, rfl, rfl, by simp⟩, hsound,
    ChunkStore.isEmpty_new Nat.one_pos, Nat.le_of_eq hcount,
    by rw [hcount]; decide, hbuild, hfits⟩

/-- A node that publishes one block. -/
theorem publishes_two_bytes :
    ∃ published d server block,
      Publishes .runs StoreMetadata.digest published d server
        ∧ published 0 = some block
        ∧ d.blockHashes = [StoreMetadata.digest block] := by
  obtain ⟨r, h⟩ := builtInto_two_bytes
  have hcount : chunkCount (MetaFileSystem.oneFile [])
      (sourceAt (fun _ => StoreMetadata.twoBytes) [115]) = 1 := by decide
  have hstatic := MetaFileSystem.oneFile_static []
  have hblocks := h.blocks hstatic rfl
  rw [hcount] at hblocks
  obtain ⟨d, server, -, hpublishes⟩ := h.publishes StoreMetadata.digest
    hstatic rfl (show ∀ n : Nat, ((fun _ => {}) n : Io).AllOk from
      fun _ => ⟨rfl, rfl, rfl, by simp⟩)
  obtain ⟨block, hblock⟩ :=
    Option.isSome_iff_exists.1 ((hblocks 0).2 Nat.one_pos)
  refine ⟨_, d, server, block, hpublishes, hblock, ?_⟩
  have hhash := hpublishes.hash 0 block hblock
  have hshort : d.blockHashes.length ≤ 1 := by
    by_contra hlong
    obtain ⟨block', hblock'⟩ := hpublishes.listed 1 (by
      show 1 < d.blockHashes.length
      omega)
    have hone := (hblocks 1).1 (by rw [hblock']; rfl)
    exact absurd hone (by decide)
  match hlist : d.blockHashes, hshort with
  | [], _ =>
      rw [hlist] at hhash
      cases hhash
  | [x], _ =>
      rw [hlist] at hhash
      rw [Option.some.inj hhash]

end Build

end Distfs

/-
`DistfsMetadata(ChunkStore &)`: the checksums of the chunks of a store, and
the id of the file system (`network/distfs_metadata.cc`).

# The ids

The constructor asks the store how many chunks it has, `n`, and reads the
chunks `0` to `n - 1`. It throws if one of them is missing, as it would be
if another one were there instead. What a completed build leaves has no
gap (`gapless_of_kept`), so that it can be served (`served_of_build`). The
store has to keep the chunks for that: those the build writes must fit.

# The fields

The constructor sets the id and the hashes. The peer stays empty and the
node id is never set; both are left out.
-/
import Distfs.Data.BlockFormat
import Distfs.Data.CompressedOps
import Distfs.Meta.Kept
import Distfs.Meta.Lookup
import Distfs.Meta.OneChunk

namespace Distfs

/-- `DistfsMetadata`, as its constructor from a store sets it. -/
structure StoreMetadata where
  id : UInt64
  blockHashes : List Bytes

namespace StoreMetadata

/-- A `char` as a `uint64_t`: it is signed, and the sign is extended. -/
def ofChar (c : UInt8) : UInt64 :=
  if c.toNat < 128 then c.toUInt64 else c.toUInt64 - 256

/-- The last loops of the constructor: the product of all characters. -/
def hashId (hashes : List Bytes) : UInt64 :=
  hashes.foldl (fun id s => s.foldl (fun id c => id * ofChar c) id) 1

variable (checksum : Bytes → Bytes) (ios : Nat → Io)

/-- The first loop of the constructor: the checksums of `n` chunks from `i`
on. The system calls of the `i`-th turn end as `ios i` says; an error is the
text of the exception. -/
def readHashes :
    Nat → Nat → ChunkStore →
      Option (Except String (List Bytes) × ChunkStore)
  | 0, _, s => some (.ok [], s)
  | n + 1, i, s =>
      match s.readChunk (ios i) (UInt32.ofNat i) with
      | none => none
      | some (.error _, s) =>
          some (.error ("Store missing data block " ++ toString i), s)
      | some (.ok block, s) =>
          match readHashes n (i + 1) s with
          | none => none
          | some (.error e, s) => some (.error e, s)
          | some (.ok hashes, s) => some (.ok (checksum block :: hashes), s)

/-- The constructor. -/
def ofStore (s : ChunkStore) :
    Option (Except String StoreMetadata × ChunkStore) :=
  match readHashes checksum ios (uint32 s.available.card) 0 s with
  | none => none
  | some (.error e, s) => some (.error e, s)
  | some (.ok hashes, s) =>
      some (.ok { id := hashId hashes, blockHashes := hashes }, s)

variable {checksum ios} {s : ChunkStore} {last : Nat}
  {used old : List UInt32}

/-- Chunks that are stored are read, one after the other. -/
theorem readHashes_ok (hios : ∀ n, (ios n).AllOk) (n : Nat) :
    ∀ (i : Nat) (s : ChunkStore) (used : List UInt32),
      Roomy last s used old →
      (∀ k, i ≤ k → k < i + n → ∃ block,
        s.fileOf (UInt32.ofNat k) = some block
          ∧ block.length ≤ chunkSizeBytes) →
      ∃ hashes t, readHashes checksum ios n i s = some (.ok hashes, t)
        ∧ hashes.length = n
        ∧ ∀ k, k < n →
          hashes[k]? = (s.fileOf (UInt32.ofNat (i + k))).map checksum := by
  induction n with
  | zero => exact fun i s used _ _ => ⟨[], s, rfl, rfl, fun k hk => by omega⟩
  | succ n ih =>
      intro i s used h hfiles
      obtain ⟨block, hfile, hlen⟩ := hfiles i (Nat.le_refl _) (by omega)
      obtain ⟨t, hread, h', hsame⟩ := h.read (hios i) hfile hlen
      obtain ⟨hashes, t', hrest, hlength, hget⟩ := ih (i + 1) t _ h'
        fun k hlo hhi => by
          rw [hsame]
          exact hfiles k (by omega) (by omega)
      refine ⟨checksum block :: hashes, t', ?_, ?_, fun k hk => ?_⟩
      · simp only [readHashes, hread, hrest]
      · rw [List.length_cons, hlength]
      · cases k with
        | zero =>
            rw [List.getElem?_cons_zero, Nat.add_zero, hfile]
            rfl
        | succ k =>
            rw [List.getElem?_cons_succ, hget k (by omega), hsame]
            congr 3
            omega

/-- The number of ids below `n`. -/
theorem card_of_below {ids : Finset UInt32} {n : Nat} (hn : n ≤ 2 ^ 32)
    (h : ∀ id, id ∈ ids ↔ id.toNat < n) : ids.card = n := by
  have himage : ids.image UInt32.toNat = Finset.range n := by
    ext k
    rw [Finset.mem_image, Finset.mem_range]
    constructor
    · rintro ⟨id, hid, rfl⟩
      exact (h id).1 hid
    · intro hk
      have hto : (UInt32.ofNat k).toNat = k :=
        ChunkBuilder.toNat_ofNat_of_lt (Nat.lt_of_lt_of_le hk hn)
      exact ⟨UInt32.ofNat k, (h _).2 (by omega), hto⟩
  rw [← Finset.card_image_of_injective ids fun _ _ => UInt32.toNat_inj.1,
    himage, Finset.card_range]

/-- A store whose chunks are those below `n` has its metadata. -/
theorem ofStore_ok (hios : ∀ n, (ios n).AllOk) (h : Roomy last s used old)
    {n : Nat} (hn : n < 2 ^ 32)
    (hids : ∀ id, id ∈ s.available ↔ id.toNat < n)
    (hlen : ∀ id block, s.fileOf id = some block →
      block.length ≤ chunkSizeBytes) :
    ∃ d t, ofStore checksum ios s = some (.ok d, t)
      ∧ d.blockHashes.length = n
      ∧ ∀ i, i < n →
        d.blockHashes[i]? = (s.fileOf (UInt32.ofNat i)).map checksum := by
  have hcard : uint32 s.available.card = n := by
    rw [card_of_below (Nat.le_of_lt hn) hids]
    exact Nat.mod_eq_of_lt hn
  obtain ⟨hashes, t, hread, hlength, hget⟩ :=
    @readHashes_ok checksum ios last old hios n 0 s used h fun k _ hk => by
      have hto : (UInt32.ofNat k).toNat = k :=
        ChunkBuilder.toNat_ofNat_of_lt (by omega)
      have hin := (hids (UInt32.ofNat k)).2 (by omega)
      obtain ⟨block, hfile⟩ := Option.isSome_iff_exists.1
        ((h.listed _).1 hin)
      exact ⟨block, hfile, hlen _ _ hfile⟩
  refine ⟨{ id := hashId hashes, blockHashes := hashes }, t, ?_, hlength,
    fun i hi => ?_⟩
  · simp only [ofStore, hcard, hread]
  · rw [hget i hi, Nat.zero_add]

-- ============================================================ after a build

open MetaFSBuilder ChunkBuilder SourceTree

/-- A store that can be served: its chunks are those below `n`, whole when
they were compressed, and the constructor comes back with the checksum of
each. -/
structure Servable (z : Lz4) (checksum : Bytes → Bytes) (ios : Nat → Io)
    (s : ChunkStore) (n : Nat) : Prop where
  available : ∀ id, id ∈ s.available ↔ id.toNat < n
  whole : ∀ id block, s.fileOf id = some block →
    ∃ c, c.length = chunkSizeBytes
      ∧ block = (z.compressDefault c chunkSizeBytes).2
  metadata : ∃ d t, ofStore checksum ios s = some (.ok d, t)
    ∧ d.blockHashes.length = n
    ∧ ∀ i, i < n → ∃ block, s.fileOf (UInt32.ofNat i) = some block
      ∧ d.blockHashes[i]? = some (checksum block)

/-- What a completed build leaves in a store that was empty and has room
for it can be served, if its chunks fit. -/
theorem served_of_build {z : Lz4} {ios ios' : Nat → Io}
    {openAt : Bytes → SourceFile} {heap : Nat → Mem} {root : Bytes}
    {t : SourceTree} (hz : z.Documented) (hios : ∀ n, (ios n).AllOk)
    (hios' : ∀ n, (ios' n).AllOk) (hstatic : Static t)
    (hsup : t.supported = true)
    (hsound : ∀ path s, Named t path s → s.isReg = true →
      Sound (sourceAt openAt root path))
    {s : ChunkStore} (hempty : s.IsEmpty)
    (hroom : chunkCount t (sourceAt openAt root) ≤ s.collector.size)
    (hfew : chunkCount t (sourceAt openAt root) < 2 ^ 32)
    {buff : Mem} {fuel : Nat} {r : Built (ChunkStore × Nat)}
    (hbuild : build (CompressedStore.ops z ios) openAt fuel heap root t
      (new (s, 0) buff) = some r)
    (hfits : ∀ b ∈ chunksWritten (CompressedStore.ops z ios) openAt fuel heap
      root t (s, 0) buff, z.Fits b chunkSizeBytes) :
    r.err = .ok ∧ ∃ n, 1 ≤ n
      ∧ Servable z checksum ios' r.chunks.store.1 n := by
  have hpos := chunkSizeBytes_pos
  rw [chunkCount] at hroom hfew
  obtain ⟨herr, hready, hall⟩ := gapless_of_kept
    (CompressedStore.keeps hz hios _) hstatic.found hsup
    (CompressedStore.ready_of_isEmpty hempty hroom 0)
    (fun id => by rw [CompressedStore.view, hempty.files]; rfl) hbuild hfits
    ((Nat.div_lt_iff_lt_mul hpos).1 (Nat.lt_of_succ_lt hfew)) hsound rfl
  generalize r.chunks.store = store at hready hall
  obtain ⟨used, old, hroomy⟩ := hready.roomy
  have hids : ∀ id, id ∈ store.1.available
      ↔ id.toNat < totalLen t (sourceAt openAt root) / chunkSizeBytes + 1 := by
    intro id
    have hid := hall id
    rw [CompressedStore.view, Option.isSome_map] at hid
    exact (hroomy.listed id).trans (hid.trans Nat.lt_succ_iff.symm)
  obtain ⟨d, t', hstore, hlength, hget⟩ := @ofStore_ok checksum ios' _ _ _ _
    hios' hroomy _ hfew hids fun id block hblock => by
      obtain ⟨c, -, -, rfl⟩ := hready.whole id block hblock
      exact CompressedStore.length_compress_le hz c
  have hwhole : ∀ id block, store.1.fileOf id = some block →
      ∃ c, c.length = chunkSizeBytes
        ∧ block = (z.compressDefault c chunkSizeBytes).2 := by
    intro id block hblock
    obtain ⟨c, hc, -, hout⟩ := hready.whole id block hblock
    exact ⟨c, hc, hout⟩
  refine ⟨herr, _, Nat.succ_le_succ (Nat.zero_le _), hids, hwhole, d, t',
    hstore, hlength, fun i hi => ?_⟩
  have hto : (UInt32.ofNat i).toNat = i := toNat_ofNat_of_lt (by omega)
  obtain ⟨block, hblock⟩ := Option.isSome_iff_exists.1
    ((hroomy.listed (UInt32.ofNat i)).1 ((hids _).2 (by omega)))
  refine ⟨block, hblock, ?_⟩
  rw [hget i hi, hblock]
  rfl

/-- A file of two bytes, which are read one by one. -/
def twoBytes : SourceFile :=
  .opened { rest := [104, 105], script := [.upTo 1] }

/-- A checksum of 32 bytes. -/
def digest (b : Bytes) : Bytes := (b ++ List.replicate 32 0).take 32

/-- The file is built into a store with room for one chunk, in memory of
zeros; the chunk is mostly zeros, and fits. -/
theorem build_two_bytes :
    ∃ r, build (CompressedStore.ops .runs fun _ => {}) (fun _ => twoBytes)
        200 (fun _ _ => 0) [115] (MetaFileSystem.oneFile [])
        (new (.new 1, 0) fun _ => 0) = some r
      ∧ ∀ b ∈ chunksWritten (CompressedStore.ops .runs fun _ => {})
          (fun _ => twoBytes) 200 (fun _ _ => 0) [115]
          (MetaFileSystem.oneFile []) (.new 1, 0) (fun _ => 0),
        Lz4.runs.Fits b chunkSizeBytes := by
  have hios : ∀ n : Nat, ((fun _ => {}) n : Io).AllOk :=
    fun _ => ⟨rfl, rfl, rfl, by simp⟩
  have hsound : ∀ path s, Named (MetaFileSystem.oneFile []) path s →
      s.isReg = true → Sound (sourceAt (fun _ => twoBytes) [115] path) := by
    intro path s _ _ c hc
    rw [List.mem_singleton.1 hc]
    decide
  have hlen : totalLen (MetaFileSystem.oneFile [])
      (sourceAt (fun _ => twoBytes) [115]) = 172 := by decide
  obtain ⟨m, hscan⟩ := @scanDfs_small (fun _ _ => 0)
    (MetaFileSystem.oneFile []) (by decide) (by decide)
  obtain ⟨r, c, hbuild, hwritten, hc, htail⟩ := written_first
    (ChunkStore.new 1, 0) (fun _ => 0) (MetaFileSystem.oneFile_static []).found
    (by decide) hsound
    (by rw [hlen]; decide) hscan
    (show (MetaFileSystem.oneFile []).extent ≤ 200 by decide)
    fun c _ => CompressedStore.ops_accepts Lz4.runs_documented hios
      (LruCollector.coherent_new 1) Nat.one_pos 0 c
  refine ⟨r, hbuild, fun b hb => ?_⟩
  rw [hwritten, List.mem_singleton] at hb
  rw [hlen] at htail
  have hchunk := chunkSizeBytes_eq
  rw [hb]
  refine Lz4.runs_fits_of_zeros (n := 172) (fun i hlo hhi => ?_) (by omega)
    (by omega)
  exact htail i hlo (by rw [← hc]; exact hhi)

theorem served_of_build_two_bytes :
    ∃ r, build (CompressedStore.ops .runs fun _ => {}) (fun _ => twoBytes)
        200 (fun _ _ => 0) [115] (MetaFileSystem.oneFile [])
        (new (.new 1, 0) fun _ => 0) = some r
      ∧ r.err = .ok ∧ ∃ n, 1 ≤ n
        ∧ Servable .runs digest (fun _ => {}) r.chunks.store.1 n := by
  have hios : ∀ n : Nat, ((fun _ => {}) n : Io).AllOk :=
    fun _ => ⟨rfl, rfl, rfl, by simp⟩
  have hsound : ∀ path s, Named (MetaFileSystem.oneFile []) path s →
      s.isReg = true → Sound (sourceAt (fun _ => twoBytes) [115] path) := by
    intro path s _ _ c hc
    rw [List.mem_singleton.1 hc]
    decide
  have hcount : chunkCount (MetaFileSystem.oneFile [])
      (sourceAt (fun _ => twoBytes) [115]) = 1 := by decide
  obtain ⟨r, hbuild, hfits⟩ := build_two_bytes
  exact ⟨r, hbuild, served_of_build Lz4.runs_documented hios hios
    (MetaFileSystem.oneFile_static []) (by decide) hsound
    (ChunkStore.isEmpty_new Nat.one_pos) (Nat.le_of_eq hcount)
    (by rw [hcount]; decide) hbuild hfits⟩

end StoreMetadata

end Distfs

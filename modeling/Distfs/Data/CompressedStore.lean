/-
Chunks are stored LZ4-compressed (`data/compression_engine.cc`,
`data/compressed_store.cc`).

LZ4 is third-party code: a parameter, with its documented behaviour as
a hypothesis (`Lz4.Documented`). The two libraries' error conventions
differ: `LZ4_compress_default` answers ZERO for "does not fit",
`LZ4_decompress_safe` a NEGATIVE number for "malformed". `writeChunk`
tests the former with the latter's test, and so stores an empty file
for content that does not fit (`readChunk_of_not_fits`).
-/
import Distfs.Data.ChunkStore

namespace Distfs

open Transfer

/-- The two LZ4 entry points: source and capacity of the destination to
the `int` returned and the bytes written to the destination. -/
structure Lz4 where
  compressDefault : Bytes → Nat → Int × Bytes
  decompressSafe : Bytes → Nat → Int × Bytes

namespace Lz4

/-- The compressed form of `src` fits a destination of `cap` bytes. -/
def Fits (z : Lz4) (src : Bytes) (cap : Nat) : Prop :=
  0 < (z.compressDefault src cap).1

/-- The documented behaviour: compression returns the size of its
output, zero when that does not fit; decompression inverts every output
of compression and rejects empty input. -/
structure Documented (z : Lz4) : Prop where
  size : ∀ src cap, 0 ≤ (z.compressDefault src cap).1
    ∧ (z.compressDefault src cap).1 ≤ cap
    ∧ ((z.compressDefault src cap).2.length : Int)
        = (z.compressDefault src cap).1
  inverts : ∀ src cap cap', z.Fits src cap → src.length ≤ cap' →
    z.decompressSafe (z.compressDefault src cap).2 cap'
      = ((src.length : Int), src)
  empty : ∀ cap, (z.decompressSafe [] cap).1 < 0

end Lz4

namespace CompressedStore

variable (z : Lz4)

/-- `CompressedStore::read_chunk`. -/
def readChunk (s : ChunkStore) (io : Io) (id : UInt32) :
    Option (Except ErrorCode Bytes × ChunkStore) :=
  match s.readChunk io id with
  | none => none
  | some (.error err, s) => some (.error err, s)
  | some (.ok buf, s) =>
      let (status, buffer) := z.decompressSafe buf chunkSizeBytes
      if status < 0 then some (.error .internalError, s)
      else some (.ok (buffer.take status.toNat), s)

/-- `CompressedStore::write_chunk`. -/
def writeChunk (s : ChunkStore) (io : Io) (id : UInt32) (buffer : Bytes) :
    Option (ErrorCode × ChunkStore) :=
  let (status, buf) := z.compressDefault buffer chunkSizeBytes
  if status < 0 then some (.internalError, s)
  else s.writeChunk io id (buf.take status.toNat)

variable {z} {s : ChunkStore} {wio rio : Io} {id : UInt32} {b : Bytes}
  {r : ErrorCode × ChunkStore}

/-- With all system calls succeeding a defined write returns OK, and
the file holds the output of the compressor, whatever that is. -/
theorem writeChunk_file (hz : z.Documented) (hc : s.collector.Coherent)
    (hio : wio.AllOk) (h : writeChunk z s wio id b = some r) :
    r.1 = .ok ∧ r.2.fileOf id = some (z.compressDefault b chunkSizeBytes).2
      ∧ r.2.collector.Coherent ∧ id ∈ r.2.collector.ids := by
  obtain ⟨hnonneg, -, hlen⟩ := hz.size b chunkSizeBytes
  have hwhole : (z.compressDefault b chunkSizeBytes).2.take
      (z.compressDefault b chunkSizeBytes).1.toNat
      = (z.compressDefault b chunkSizeBytes).2 :=
    List.take_of_length_le (by omega)
  simp only [writeChunk, not_lt.2 hnonneg, if_false, hwhole] at h
  exact ChunkStore.writeChunk_ok hc hio h

/-- What is read back after a write that returned OK: the bytes, when
the compressed form fitted. -/
theorem readChunk_of_fits (hz : z.Documented) (hc : s.collector.Coherent)
    (hwio : wio.AllOk) (hrio : rio.AllOk) (hb : b.length ≤ chunkSizeBytes)
    (h : writeChunk z s wio id b = some r) (hfits : z.Fits b chunkSizeBytes) :
    ∃ s', readChunk z r.2 rio id = some (.ok b, s') := by
  obtain ⟨-, hfile, hcoh, hmem⟩ := writeChunk_file hz hc hwio h
  obtain ⟨-, hcap, hlen⟩ := hz.size b chunkSizeBytes
  obtain ⟨s', hread, -⟩ := ChunkStore.readChunk_ok hcoh hrio hfile
    (by omega) (Or.inr (List.ne_nil_of_mem hmem))
  have hinv := hz.inverts b chunkSizeBytes chunkSizeBytes hfits hb
  refine ⟨s', ?_⟩
  simp only [readChunk, hread, hinv]
  simp

/-- Content that does not fit is stored as an empty file, which the
next read rejects. -/
theorem readChunk_of_not_fits (hz : z.Documented)
    (hc : s.collector.Coherent) (hwio : wio.AllOk) (hrio : rio.AllOk)
    (h : writeChunk z s wio id b = some r)
    (hfits : ¬ z.Fits b chunkSizeBytes) :
    ∃ s', readChunk z r.2 rio id = some (.error .internalError, s') := by
  obtain ⟨-, hfile, hcoh, hmem⟩ := writeChunk_file hz hc hwio h
  obtain ⟨hnonneg, -, hlen⟩ := hz.size b chunkSizeBytes
  have hzero : (z.compressDefault b chunkSizeBytes).1 = 0 :=
    le_antisymm (not_lt.1 hfits) hnonneg
  have hnil : (z.compressDefault b chunkSizeBytes).2 = [] := by
    rw [hzero] at hlen
    exact List.length_eq_zero_iff.1 (by omega)
  rw [hnil] at hfile
  obtain ⟨s', hread, -⟩ := ChunkStore.readChunk_ok hcoh hrio hfile
    (Nat.zero_le _) (Or.inr (List.ne_nil_of_mem hmem))
  refine ⟨s', ?_⟩
  simp only [readChunk, hread, hz.empty, if_true]

/-- A write that returned OK can be read back: the next read of the
chunk returns OK with exactly its bytes. -/
def RoundTrips (z : Lz4) (s : ChunkStore) (wio rio : Io) (id : UInt32)
    (b : Bytes) : Prop :=
  ∀ s', writeChunk z s wio id b = some (.ok, s') →
    ∃ s'', readChunk z s' rio id = some (.ok b, s'')

theorem writeChunk_defined (z : Lz4) (hc : s.collector.Coherent)
    (hpos : 0 < s.collector.size) (io : Io) (id : UInt32) (b : Bytes) :
    (writeChunk z s io id b).isSome := by
  unfold writeChunk
  simp only
  split
  · rfl
  · exact ChunkStore.writeChunk_defined hc hpos io id _

/-- Only content that fits can be read back. -/
theorem RoundTrips.fits (hz : z.Documented) (hc : s.collector.Coherent)
    (hwio : wio.AllOk) (hrio : rio.AllOk)
    (hdef : (writeChunk z s wio id b).isSome)
    (htrip : RoundTrips z s wio rio id b) : z.Fits b chunkSizeBytes := by
  obtain ⟨r, hr⟩ := Option.isSome_iff_exists.1 hdef
  have hok := (writeChunk_file hz hc hwio hr).1
  have hr' : writeChunk z s wio id b = some (.ok, r.2) := by
    rw [hr, ← hok]
  by_contra hfits
  obtain ⟨s', hread⟩ := htrip r.2 hr'
  obtain ⟨s'', herr⟩ := readChunk_of_not_fits hz hc hwio hrio hr' hfits
  rw [hread] at herr
  cases herr

/-- A chunk survives the store exactly when its compressed form fits a
buffer of `CHUNK_SIZE_BYTES`, in every state of the store in which the
write is defined. -/
theorem roundTrips_iff_fits (hz : z.Documented) (hc : s.collector.Coherent)
    (hwio : wio.AllOk) (hrio : rio.AllOk) (hb : b.length ≤ chunkSizeBytes)
    (hdef : (writeChunk z s wio id b).isSome) :
    RoundTrips z s wio rio id b ↔ z.Fits b chunkSizeBytes :=
  ⟨fun htrip => htrip.fits hz hc hwio hrio hdef,
    fun hfits _ hs' => readChunk_of_fits hz hc hwio hrio hb hs' hfits⟩

end CompressedStore

-- =========================================== literal-only LZ4 blocks

/-!
What LZ4 emits for content in which no four bytes repeat within its
window (in particular for anything shorter than 13 bytes): one token,
the run length in bytes of 255 and a remainder, and the content itself.
Such a block is longer than the content, so four megabytes of it never
fit. The two system libraries agree with this codec on the inputs below.
-/

namespace Lz4

/-- The run-length bytes of a literal run of `n + 15` bytes. -/
def runLength (n : Nat) : Bytes :=
  List.replicate (n / 255) 255 ++ [UInt8.ofNat (n % 255)]

/-- The block of one literal run. -/
def literalBlock (src : Bytes) : Bytes :=
  if src.length < 15 then UInt8.ofNat (src.length * 16) :: src
  else 0xF0 :: (runLength (src.length - 15) ++ src)

/-- The codec of literal-only blocks. -/
def literal : Lz4 where
  compressDefault src cap :=
    let out := literalBlock src
    if out.length ≤ cap then ((out.length : Int), out) else (0, [])
  decompressSafe block cap :=
    match block with
    | [] => (-1, [])
    | token :: rest =>
        let out := if token = 0xF0 then (rest.dropWhile (· = 255)).drop 1
          else rest
        if out.length ≤ cap then ((out.length : Int), out) else (-1, [])

theorem length_lt_literalBlock (src : Bytes) :
    src.length < (literalBlock src).length := by
  unfold literalBlock
  split
  · exact Nat.lt_succ_self _
  · rw [List.length_cons, List.length_append]
    omega

private theorem dropWhile_runLength (n : Nat) (src : Bytes) :
    ((runLength n ++ src).dropWhile (· = 255)).drop 1 = src := by
  have hlast : UInt8.ofNat (n % 255) ≠ 255 := by
    intro h
    have h' := congrArg UInt8.toNat h
    rw [UInt8.toNat_ofNat', Nat.mod_eq_of_lt (by omega)] at h'
    have : n % 255 = 255 := h'
    omega
  unfold runLength
  induction n / 255 with
  | zero => simp [hlast]
  | succ k ih =>
      rw [List.replicate_succ, List.cons_append, List.cons_append,
        List.dropWhile_cons_of_pos (by simp)]
      exact ih

/-- A block of literals never fits a buffer of the content's size. -/
theorem literal_not_fits (src : Bytes) :
    ¬ literal.Fits src src.length := by
  have hlong := length_lt_literalBlock src
  have hout : literal.compressDefault src src.length = (0, []) :=
    if_neg (by omega)
  rw [Fits, hout]
  exact lt_irrefl _

/-- The codec keeps LZ4's contract. -/
theorem literal_documented : literal.Documented := by
  refine ⟨fun src cap => ?_, fun src cap cap' hfits hcap' => ?_,
    fun cap => ?_⟩
  · by_cases hle : (literalBlock src).length ≤ cap
    · have hout : literal.compressDefault src cap
          = (((literalBlock src).length : Int), literalBlock src) :=
        if_pos hle
      rw [hout]
      exact ⟨Int.natCast_nonneg _, Int.ofNat_le.2 hle, rfl⟩
    · have hout : literal.compressDefault src cap = (0, []) := if_neg hle
      rw [hout]
      exact ⟨Int.le_refl _, Int.natCast_nonneg _, rfl⟩
  · by_cases hle : (literalBlock src).length ≤ cap
    · have hout : literal.compressDefault src cap
          = (((literalBlock src).length : Int), literalBlock src) :=
        if_pos hle
      rw [hout]
      by_cases hshort : src.length < 15
      · have htoken : UInt8.ofNat (src.length * 16) ≠ 0xF0 := by
          intro h
          have h' := congrArg UInt8.toNat h
          rw [UInt8.toNat_ofNat', Nat.mod_eq_of_lt (by omega)] at h'
          have h240 : src.length * 16 = 240 := h'
          omega
        simp only [literalBlock, if_pos hshort, literal, if_neg htoken,
          if_pos hcap']
      · simp only [literalBlock, if_neg hshort, literal, if_true,
          dropWhile_runLength, if_pos hcap']
    · have hout : literal.compressDefault src cap = (0, []) := if_neg hle
      rw [Fits, hout] at hfits
      exact absurd hfits (lt_irrefl _)
  · show (-1 : Int) < 0
    omega

end Lz4

namespace CompressedStore

/-- Three bytes written to an empty store of one chunk. -/
theorem roundTrips_three_bytes :
    RoundTrips .literal (.new 1) {} {} 7 [104, 105, 10]
      ↔ Lz4.literal.Fits [104, 105, 10] chunkSizeBytes :=
  roundTrips_iff_fits Lz4.literal_documented (LruCollector.coherent_new 1)
    ⟨rfl, rfl, rfl, by simp⟩ ⟨rfl, rfl, rfl, by simp⟩ (by decide)
    (writeChunk_defined _ (LruCollector.coherent_new 1) Nat.one_pos _ _ _)

/-- Byte `i` of a pseudo-random sequence (an integer hash of `i`). -/
def noiseByte (i : Nat) : UInt8 :=
  let h := UInt32.ofNat i * 2654435769
  let h := (h ^^^ (h >>> 15)) * 2246822507
  let h := (h ^^^ (h >>> 13)) * 3266489909
  (h ^^^ (h >>> 16)).toUInt8

/-- A chunk of incompressible content. -/
def noiseChunk : Bytes := (List.range chunkSizeBytes).map noiseByte

theorem length_noiseChunk : noiseChunk.length = chunkSizeBytes := by
  rw [noiseChunk, List.length_map, List.length_range]

/-- A full chunk of incompressible content is accepted by an empty
store and cannot be read back. -/
theorem not_roundTrips_noise :
    ¬ RoundTrips .literal (.new 1) {} {} 7 noiseChunk := by
  have hio : Io.AllOk {} := ⟨rfl, rfl, rfl, by simp⟩
  have hcoh : (ChunkStore.new 1).collector.Coherent :=
    LruCollector.coherent_new 1
  intro htrip
  have hfits := htrip.fits Lz4.literal_documented hcoh hio hio
    (writeChunk_defined _ hcoh Nat.one_pos _ _ _)
  rw [← length_noiseChunk] at hfits
  exact Lz4.literal_not_fits noiseChunk hfits

end CompressedStore

end Distfs

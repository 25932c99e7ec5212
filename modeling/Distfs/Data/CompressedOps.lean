/-
`CompressedStore` as the store behind the builder and the reader.

# The operations

`ops` is the class over a `ChunkStore`. The system calls of the `n`-th
operation end as `ios n` says, and the state counts the operations.

# The contract

A `ChunkStore` evicts, so that it keeps what is written only as long as
the ids in use are no more than it has room for. `Roomy last` is the
state of one that was empty and has been used for ids up to `last` since
then; what its collector still tracks from before is in nobody's way
(`Roomy.touch_keeps`). There the store keeps all chunks whose compressed
form fits the buffer (`keeps`).
-/
import Distfs.Data.CompressedStore
import Distfs.Data.Fitting
import Distfs.Data.StoreRuns

namespace Distfs

open Transfer

namespace CompressedStore

/-- The operations of `CompressedStore`. -/
def ops (z : Lz4) (ios : Nat → Io) : ChunkOps (ChunkStore × Nat) :=
  { writeChunk := fun s id b =>
      match writeChunk z s.1 (ios s.2) id b with
      | none => none
      | some (err, t) => some (err, (t, s.2 + 1))
    readChunk := fun s id =>
      match readChunk z s.1 (ios s.2) id with
      | none => none
      | some (x, t) => some (x, (t, s.2 + 1))
    removeChunk := fun s id =>
      let (err, t) := s.1.removeChunk (ios s.2) id
      (err, (t, s.2 + 1))
    available := fun s => s.1.available }

end CompressedStore

namespace ChunkStore

/-- A store without chunks; its collector may still track what was. -/
structure IsEmpty (s : ChunkStore) : Prop where
  tracks : ∃ used, s.collector.Tracks used
  files : ∀ id, s.fileOf id = none
  inStore : s.inStore = ∅

theorem isEmpty_new {size : Nat} (hsize : 0 < size) : (new size).IsEmpty :=
  ⟨⟨[], LruCollector.tracks_new hsize⟩, fun _ => rfl, rfl⟩

/-- After any calls a store that lists no chunk is empty. -/
theorem Sound.isEmpty {s : ChunkStore} {h : History} (h₀ : Sound s h)
    (hnone : s.available = ∅) : s.IsEmpty := by
  refine ⟨⟨_, h₀.tracks⟩, fun id => ?_, hnone⟩
  have hnot : id ∉ s.inStore := by
    rw [show s.inStore = ∅ from hnone]
    exact Finset.notMem_empty id
  rw [h₀.listed] at hnot
  exact Option.not_isSome_iff_eq_none.1 hnot

end ChunkStore

-- ==================================================== nothing is evicted

/-- A store used for ids up to `last` only since it was empty: `used` are
these uses, `old` the earlier ones. -/
structure Roomy (last : Nat) (s : ChunkStore) (used old : List UInt32) :
    Prop where
  size : last < s.collector.size
  tracks : s.collector.Tracks (used ++ old)
  ids : ∀ id ∈ used, id.toNat ≤ last
  stored : ∀ id, (s.fileOf id).isSome → id ∈ used
  listed : ∀ id, id ∈ s.inStore ↔ (s.fileOf id).isSome

/-- There are at most `last + 1` ids up to `last`. -/
theorem card_ids_le {last : Nat} {used : List UInt32}
    (h : ∀ id ∈ used, id.toNat ≤ last) : used.toFinset.card ≤ last + 1 := by
  have hsub : used.toFinset.image UInt32.toNat ⊆ Finset.range (last + 1) := by
    intro n hn
    obtain ⟨id, hid, rfl⟩ := Finset.mem_image.1 hn
    exact Finset.mem_range.2 (Nat.lt_succ_of_le
      (h id (List.mem_toFinset.1 hid)))
  rw [← Finset.card_image_of_injective _ fun _ _ => UInt32.toNat_inj.1]
  exact (Finset.card_le_card hsub).trans (Nat.le_of_eq (Finset.card_range _))

namespace Roomy

variable {last : Nat} {s : ChunkStore} {used old : List UInt32} {io : Io}
  {id : UInt32}

/-- An empty store with room for the ids. -/
theorem start (hempty : s.IsEmpty) (hsize : last < s.collector.size) :
    ∃ old, Roomy last s [] old := by
  obtain ⟨old, htracks⟩ := hempty.tracks
  refine ⟨old, hsize, htracks, fun id hid => (by cases hid), fun id hid => ?_,
    fun id => ?_⟩
  · rw [hempty.files id] at hid
    cases hid
  · rw [hempty.files id, hempty.inStore]
    exact ⟨fun hid => absurd hid (Finset.notMem_empty id), fun hid => by
      cases hid⟩

/-- What the collector gives up is none of the ids in use. -/
theorem evicted_notMem {c c' : LruCollector} (hlast : last < c.size)
    (htracks : c.Tracks (used ++ old)) (hids : ∀ i ∈ used, i.toNat ≤ last)
    (hid : id.toNat ≤ last) (htracks' : c'.Tracks (id :: (used ++ old)))
    (hsize : c'.size = c.size) {i : UInt32}
    (hgone : Recency.evicted c.size c.ids id = some i) : i ∉ used := by
  intro hi
  have hids' : ∀ j ∈ id :: used, j.toNat ≤ last := by
    intro j hj
    rcases List.mem_cons.1 hj with rfl | hj
    · exact hid
    · exact hids j hj
  have hsince := Recency.since_append_lt (List.mem_cons_of_mem id hi) old
  have hcard := card_ids_le hids'
  have hmem : i ∈ c'.ids := by
    rw [htracks'.mem_ids, hsize]
    refine ⟨List.mem_cons_of_mem _ (List.mem_append_left _ hi), ?_⟩
    rw [List.cons_append] at hsince
    omega
  rcases (htracks.mem_ids_update htracks' hsize i).1 hmem with rfl | ⟨-, hne⟩
  · exact Recency.evicted_ne hgone rfl
  · exact hne hgone

/-- A use of one of the ids evicts nothing that is stored. -/
theorem touch_keeps (hlast : last < s.collector.size)
    (htracks : s.collector.Tracks (used ++ old))
    (hids : ∀ i ∈ used, i.toNat ≤ last) (hid : id.toNat ≤ last)
    (hio : io.unlinkFails = false)
    (hstored : ∀ i, i ≠ id → (s.fileOf i).isSome → i ∈ used) :
    ∃ t, s.touch io id = some t
      ∧ t.collector.Tracks (id :: (used ++ old))
      ∧ t.collector.size = s.collector.size
      ∧ (∀ i, t.fileOf i = s.fileOf i)
      ∧ ∀ i, i ∈ t.inStore ↔ i ∈ s.inStore := by
  obtain ⟨t, htouch, htracks', hsize, hevicts⟩ :=
    ChunkStore.touch_tracks htracks hio id
  have hgone : ∀ i, Recency.evicted s.collector.size s.collector.ids id
      = some i → s.fileOf i = none := by
    intro i hi
    have hnot := evicted_notMem hlast htracks hids hid htracks' hsize hi
    by_contra hfile
    exact hnot (hstored i (Recency.evicted_ne hi)
      (Option.isSome_iff_ne_none.2 hfile))
  refine ⟨t, htouch, htracks', hsize, fun i => ?_, fun i => ?_⟩
  · rw [hevicts.fileOf]
    split
    · next hi => exact (hgone i hi).symm
    · rfl
  · rw [hevicts.inStore]
    exact and_iff_left (hgone i)

theorem ids_cons (h : Roomy last s used old) (hid : id.toNat ≤ last) :
    ∀ i ∈ id :: used, i.toNat ≤ last := by
  intro i hi
  rcases List.mem_cons.1 hi with rfl | hi
  · exact hid
  · exact h.ids i hi

/-- `write_chunk` stores the chunk, and keeps all others. -/
theorem write (h : Roomy last s used old) (hid : id.toNat ≤ last)
    (hio : io.AllOk) (buffer : Bytes) :
    ∃ t, s.writeChunk io id buffer = some (.ok, t)
      ∧ Roomy last t (id :: used) old
      ∧ ∀ i, t.fileOf i = if i = id then some buffer else s.fileOf i := by
  obtain ⟨t, htouch, htracks, hsize, hfiles, hin⟩ :=
    touch_keeps (s := s.setFile id (some buffer)) h.size h.tracks h.ids hid
      hio.unlink fun i hi hfile => by
        rw [ChunkStore.fileOf_setFile, if_neg hi] at hfile
        exact h.stored i hfile
  have hfiles' : ∀ i, t.fileOf i = if i = id then some buffer
      else s.fileOf i := fun i => by
    rw [hfiles, ChunkStore.fileOf_setFile]
  refine ⟨{ t with inStore := insert id t.inStore },
    ChunkStore.writeChunk_touch hio htouch,
    ⟨?_, htracks, h.ids_cons hid, fun i hi => ?_, fun i => ?_⟩, hfiles'⟩
  · rw [show ({ t with inStore := insert id t.inStore } :
      ChunkStore).collector.size = s.collector.size from hsize]
    exact h.size
  · rw [show ({ t with inStore := insert id t.inStore } :
      ChunkStore).fileOf i = t.fileOf i from rfl, hfiles'] at hi
    by_cases heq : i = id
    · rw [heq]
      exact List.mem_cons_self
    · rw [if_neg heq] at hi
      exact List.mem_cons_of_mem _ (h.stored i hi)
  · show i ∈ insert id t.inStore ↔ (t.fileOf i).isSome
    rw [Finset.mem_insert, hin, ChunkStore.inStore_setFile, h.listed, hfiles']
    by_cases heq : i = id <;> simp [heq]

/-- `read_chunk` of a stored chunk gives its bytes, and changes no
file. -/
theorem read (h : Roomy last s used old) (hio : io.AllOk) {content : Bytes}
    (hfile : s.fileOf id = some content)
    (hlen : content.length ≤ chunkSizeBytes) :
    ∃ t, s.readChunk io id = some (.ok content, t)
      ∧ Roomy last t (id :: used) old ∧ ∀ i, t.fileOf i = s.fileOf i := by
  have hused : id ∈ used := h.stored id (by rw [hfile]; rfl)
  have hid := h.ids id hused
  obtain ⟨t, htouch, htracks, hsize, hfiles, hin⟩ :=
    touch_keeps h.size h.tracks h.ids hid hio.unlink fun i _ => h.stored i
  refine ⟨t, ChunkStore.readChunk_touch hio hfile hlen htouch,
    ⟨?_, htracks, h.ids_cons hid, fun i hi => ?_, fun i => ?_⟩, hfiles⟩
  · rw [hsize]
    exact h.size
  · rw [hfiles] at hi
    exact List.mem_cons_of_mem _ (h.stored i hi)
  · rw [hin, hfiles]
    exact h.listed i

end Roomy

-- ========================================================== the contract

namespace CompressedStore

/-- What stands compressed in the file of a chunk. -/
def view (z : Lz4) (s : ChunkStore × Nat) (id : UInt32) : Option Bytes :=
  (s.1.fileOf id).map fun block => (z.decompressSafe block chunkSizeBytes).2

/-- Room for the ids up to `last`, and every file is a whole chunk that
fits, compressed. -/
structure Ready (z : Lz4) (last : Nat) (s : ChunkStore × Nat) : Prop where
  roomy : ∃ used old, Roomy last s.1 used old
  whole : ∀ id block, s.1.fileOf id = some block →
    ∃ c, c.length = chunkSizeBytes ∧ z.Fits c chunkSizeBytes
      ∧ block = (z.compressDefault c chunkSizeBytes).2

section Contract

variable {z : Lz4} {last : Nat} {ios : Nat → Io} (hz : z.Documented)
  (hios : ∀ n, (ios n).AllOk)

include hz in
/-- A chunk that fits decompresses to itself. -/
theorem decompress_compress {c : Bytes} (hc : c.length = chunkSizeBytes)
    (hfits : z.Fits c chunkSizeBytes) :
    z.decompressSafe (z.compressDefault c chunkSizeBytes).2 chunkSizeBytes
      = ((c.length : Int), c) :=
  hz.inverts c _ _ hfits (Nat.le_of_eq hc)

include hz in
theorem length_compress_le (c : Bytes) :
    (z.compressDefault c chunkSizeBytes).2.length ≤ chunkSizeBytes := by
  obtain ⟨-, hcap, hlen⟩ := hz.size c chunkSizeBytes
  omega

include hz hios in
/-- `write_chunk` of a whole chunk that fits. -/
theorem ops_write {s : ChunkStore × Nat} {id : UInt32} {b : Bytes}
    (hs : Ready z last s) (hid : id.toNat ≤ last)
    (hb : b.length = chunkSizeBytes) (hfits : z.Fits b chunkSizeBytes) :
    ∃ t, (ops z ios).writeChunk s id b = some (.ok, t) ∧ Ready z last t
      ∧ ∀ i, view z t i = if i = id then some b else view z s i := by
  obtain ⟨used, old, hroomy⟩ := hs.roomy
  obtain ⟨hnonneg, -, hlen⟩ := hz.size b chunkSizeBytes
  have hwhole : (z.compressDefault b chunkSizeBytes).2.take
      (z.compressDefault b chunkSizeBytes).1.toNat
      = (z.compressDefault b chunkSizeBytes).2 :=
    List.take_of_length_le (by omega)
  obtain ⟨t, hwrite, hroomy', hfiles⟩ := hroomy.write hid (hios s.2)
    (z.compressDefault b chunkSizeBytes).2
  refine ⟨(t, s.2 + 1), ?_, ⟨⟨_, old, hroomy'⟩, fun i block hi => ?_⟩,
    fun i => ?_⟩
  · simp only [ops, writeChunk, not_lt.2 hnonneg, if_false, hwhole, hwrite]
  · rw [hfiles] at hi
    by_cases heq : i = id
    · rw [if_pos heq, Option.some.injEq] at hi
      exact ⟨b, hb, hfits, hi.symm⟩
    · rw [if_neg heq] at hi
      exact hs.whole i block hi
  · rw [view, hfiles]
    by_cases heq : i = id
    · rw [if_pos heq, if_pos heq, Option.map_some,
        decompress_compress hz hb hfits]
    · rw [if_neg heq, if_neg heq]
      rfl

include hz hios in
/-- `read_chunk` of a chunk that is stored. -/
theorem ops_read {s : ChunkStore × Nat} {id : UInt32} {b : Bytes}
    (hs : Ready z last s) (hb : view z s id = some b) :
    ∃ t, (ops z ios).readChunk s id = some (.ok b, t) ∧ Ready z last t
      ∧ view z t = view z s := by
  obtain ⟨used, old, hroomy⟩ := hs.roomy
  obtain ⟨block, hfile, hblock⟩ := Option.map_eq_some_iff.1 hb
  obtain ⟨c, hc, hfits, rfl⟩ := hs.whole id block hfile
  have hback := decompress_compress hz hc hfits
  rw [hback] at hblock
  have hcb : c = b := hblock
  subst hcb
  obtain ⟨t, hread, hroomy', hfiles⟩ :=
    hroomy.read (hios s.2) hfile (length_compress_le hz c)
  refine ⟨(t, s.2 + 1), ?_, ⟨⟨_, old, hroomy'⟩, fun i block hi => ?_⟩,
    funext fun i => ?_⟩
  · have hnonneg : ¬ (c.length : Int) < 0 := by omega
    simp only [ops, readChunk, hread, hback, if_neg hnonneg, Int.toNat_natCast,
      List.take_length]
  · rw [hfiles] at hi
    exact hs.whole i block hi
  · rw [view, hfiles]
    rfl

include hz hios in
/-- Whatever is written, fitting or not, is answered OK. -/
theorem ops_accepts {s : ChunkStore × Nat} (hc : s.1.collector.Coherent)
    (hsize : 0 < s.1.collector.size) (id : UInt32) (b : Bytes) :
    ∃ t, (ops z ios).writeChunk s id b = some (.ok, t) := by
  obtain ⟨⟨err, t⟩, hwrite⟩ := Option.isSome_iff_exists.1
    (writeChunk_defined z hc hsize (ios s.2) id b)
  obtain rfl : err = .ok := (writeChunk_file hz hc (hios s.2) hwrite).1
  refine ⟨(t, s.2 + 1), ?_⟩
  simp only [ops, hwrite]

include hz hios in
/-- With all system calls succeeding and room for the ids up to `last`
the store keeps what fits under these. -/
theorem keeps (last : Nat) :
    (ops z ios).Keeps (fun b => z.Fits b chunkSizeBytes) (Ready z last)
      (view z) fun id => id.toNat ≤ last := by
  refine ⟨fun s id b hs hid hb hfits => ops_write hz hios hs hid hb hfits,
    fun s id b hs hb => ops_read hz hios hs hb, fun s id hs => ?_⟩
  obtain ⟨used, old, hroomy⟩ := hs.roomy
  rw [view, Option.isSome_map]
  exact hroomy.listed id

/-- An empty store is ready for the ids it has room for. -/
theorem ready_of_isEmpty {s : ChunkStore} (hempty : s.IsEmpty)
    (hsize : last < s.collector.size) (n : Nat) : Ready z last (s, n) := by
  obtain ⟨old, hroomy⟩ := Roomy.start hempty hsize
  refine ⟨⟨[], old, hroomy⟩, fun id block hid => ?_⟩
  rw [show s.fileOf id = none from hempty.files id] at hid
  cases hid

end Contract

end CompressedStore

end Distfs

/-
What `ChunkProvider::read_chunk` hands out of a chunk that may be
shorter than its buffer.

Cached or loaded, the reply is the same copy out of an entry whose first
`L` bytes are the chunk (`readChunk_held`). Two unsigned computations
decide which bytes: `offset + len` in the range check, and `L - offset`
in the copy. A sum that wraps to a small number passes the check
(`RangeSeen` excludes it), and behind the end of the chunk the
difference wraps to a large one, so that `len` bytes of old memory are
copied (`StartsInside`). Everything else is the slice that was asked for.
-/
import Distfs.Data.ChunkProvider

namespace Distfs

namespace ChunkProvider

variable {σ : Type} {ops : ChunkOps σ}
  {client : UInt32 → σ → ErrorCode × σ} {heap : Nat → Mem}

/-- A read of the chunk reaches its bytes: an entry of the cache has
them, or there is no valid one and loading delivers them. -/
inductive Held (ops : ChunkOps σ) (client : UInt32 → σ → ErrorCode × σ)
    (p : ChunkProvider σ) (id : UInt32) (chunk : Bytes) : Prop where
  | cached (e : CacheEntry) (entry : p.entries id = some e)
      (len : e.len = chunk.length)
      (data : e.data.read 0 chunk.length = chunk) :
      Held ops client p id chunk
  | loading (store : σ) (invalid : ∀ e, p.entries id = some e → e.len = 0)
      (fetched : fetch ops client p.store id = some (.ok chunk, store)) :
      Held ops client p id chunk

/-- The reply to a read of `len` bytes at `offset`: an error and no bytes
if that leaves the buffer of a chunk, and else the bytes of the chunk
that are there. -/
def SliceOf (chunk : Bytes) (offset len : Nat) (r : ChunkReply) : Prop :=
  if chunkSizeBytes < offset + len then r.err ≠ .ok ∧ r.bytes = []
  else r.err = .ok ∧ r.readSize = some (min len (chunk.length - offset))
    ∧ r.bytes = (chunk.drop offset).take len

/-- The sum of the range check does not wrap to one that passes. -/
def RangeSeen (offset len : Nat) : Prop :=
  ¬ (2 ^ 32 ≤ offset + len ∧ offset + len - 2 ^ 32 ≤ chunkSizeBytes)

/-- A read within the buffer does not start behind the chunk, unless it
asks for nothing. -/
def StartsInside (chunk : Bytes) (offset len : Nat) : Prop :=
  offset + len ≤ chunkSizeBytes → offset ≤ chunk.length ∨ len = 0

-- =========================================================== the copy

theorem touch_defined {p : ChunkProvider σ} (hc : p.collector.Coherent)
    (hsize : 0 < p.collector.size) (id : UInt32) :
    ∃ p', p.touch id = some p' := by
  obtain ⟨c', hupdate, -⟩ := LruCollector.update_spec hc id (.inl hsize)
  unfold touch
  rw [hupdate]
  cases Recency.evicted p.collector.size p.collector.ids id with
  | none => exact ⟨_, rfl⟩
  | some gone => exact ⟨_, rfl⟩

/-- Past the range check both paths end in a copy out of an entry that
has the chunk. -/
theorem readChunk_held {p : ChunkProvider σ} {id : UInt32} {chunk : Bytes}
    {offset len : Nat} (hc : p.collector.Coherent)
    (hsize : 0 < p.collector.size) (hpos : 0 < chunk.length)
    (hheld : Held ops client p id chunk)
    (hrange : uint32 (offset + len) ≤ chunkSizeBytes) :
    ∃ e p', e.len = chunk.length ∧ e.data.read 0 chunk.length = chunk
      ∧ readChunk ops client heap p id offset len
        = some (copyOut e offset len, p') := by
  unfold readChunk
  rw [if_neg (by omega)]
  cases hheld with
  | cached e entry hlen data =>
      obtain ⟨p', htouch⟩ := touch_defined hc hsize id
      refine ⟨e, p', hlen, data, ?_⟩
      rw [entry]
      simp only
      rw [if_pos (by omega), htouch]
  | loading store invalid fetched =>
      have hload : ∃ e p', e.len = chunk.length
          ∧ e.data.read 0 chunk.length = chunk
          ∧ load ops client heap p id offset len
            = some (copyOut e offset len, p') := by
        let fresh : CacheEntry :=
          { data := (heap p.allocs).write 0 chunk, len := chunk.length }
        obtain ⟨p', htouch⟩ := @touch_defined σ
          { p.setEntry id (some fresh) with
            store := store, allocs := p.allocs + 1 } hc hsize id
        refine ⟨fresh, p', rfl, Mem.read_write_self _ 0 chunk, ?_⟩
        unfold load
        rw [fetched]
        simp only
        rw [htouch]
      cases hentry : p.entries id with
      | none => exact hload
      | some e =>
          simp only
          rw [if_neg (by rw [invalid e hentry]; omega)]
          exact hload

/-- The copy is the slice that was asked for just when it starts inside
the chunk, or copies nothing. -/
theorem copyOut_slice_iff {e : CacheEntry} {chunk : Bytes}
    {offset len : Nat} (hlen : e.len = chunk.length)
    (hdata : e.data.read 0 chunk.length = chunk)
    (hchunk : chunk.length ≤ chunkSizeBytes)
    (hfit : offset + len ≤ chunkSizeBytes) :
    ((copyOut e offset len).readSize
          = some (min len (chunk.length - offset))
        ∧ (copyOut e offset len).bytes = (chunk.drop offset).take len)
      ↔ offset ≤ chunk.length ∨ len = 0 := by
  have hbuffer := chunkSizeBytes_eq
  unfold copyOut
  simp only [Option.some.injEq]
  rcases Nat.lt_or_ge chunk.length offset with hbehind | hinside
  · -- the difference wraps to more than was asked for
    have hrest : min len (uint32 (e.len + 2 ^ 32 - offset)) = len := by
      unfold uint32
      omega
    rw [hrest, List.drop_eq_nil_of_le (by omega), List.take_nil]
    constructor
    · intro ⟨hsize, _⟩
      omega
    · rintro (hle | rfl)
      · omega
      · exact ⟨by omega, rfl⟩
  · have hrest : min len (uint32 (e.len + 2 ^ 32 - offset))
        = min len (chunk.length - offset) := by
      unfold uint32
      omega
    rw [hrest]
    refine ⟨fun _ => .inl hinside, fun _ => ⟨rfl, ?_⟩⟩
    have hwindow := @Mem.take_drop_read e.data 0 chunk.length offset
      (min len (chunk.length - offset)) (by omega)
    rw [hdata, Nat.zero_add] at hwindow
    rw [← hwindow, List.take_eq_take_iff, List.length_drop]
    omega

-- ========================================================== the reply

/-- `read_chunk` replies with the slice of the chunk if and only if the
range check sees the real sum, and a read within the buffer starts
inside the chunk or asks for nothing. -/
theorem readChunk_slice_iff (ops : ChunkOps σ)
    (client : UInt32 → σ → ErrorCode × σ) (heap : Nat → Mem)
    (p : ChunkProvider σ) (id : UInt32) (chunk : Bytes) (offset len : Nat)
    (hoffset : offset < 2 ^ 32) (hlen : len < 2 ^ 32)
    (hpos : 0 < chunk.length) (hchunk : chunk.length ≤ chunkSizeBytes)
    (hheld : Held ops client p id chunk) (hc : p.collector.Coherent)
    (hsize : 0 < p.collector.size) :
    (∃ r p', readChunk ops client heap p id offset len = some (r, p')
        ∧ SliceOf chunk offset len r)
      ↔ RangeSeen offset len ∧ StartsInside chunk offset len := by
  have hbuffer := chunkSizeBytes_eq
  unfold SliceOf RangeSeen StartsInside
  rcases Nat.lt_or_ge chunkSizeBytes (uint32 (offset + len))
    with hover | hrange
  · -- the check fails, as it should
    have hleaves : chunkSizeBytes < offset + len := by
      unfold uint32 at hover
      omega
    have hreply : readChunk ops client heap p id offset len
        = some ({ err := .internalError, readSize := none, bytes := [] },
          p) := by
      unfold readChunk
      rw [if_pos hover]
    rw [hreply]
    simp only [if_pos hleaves]
    constructor
    · intro _
      unfold uint32 at hover
      exact ⟨by omega, fun hfit => by omega⟩
    · exact fun _ => ⟨_, _, rfl, by simp, rfl⟩
  · obtain ⟨e, p', helen, hdata, hreply⟩ :=
      @readChunk_held σ ops client heap p id chunk offset len hc hsize hpos
        hheld hrange
    rw [hreply]
    rcases Nat.lt_or_ge chunkSizeBytes (offset + len) with hleaves | hfit
    · -- the sum has wrapped
      simp only [if_pos hleaves]
      constructor
      · rintro ⟨r, p'', hr, herr, -⟩
        cases hr
        exact absurd rfl herr
      · intro ⟨hseen, _⟩
        unfold uint32 at hrange
        omega
    · simp only [if_neg (Nat.not_lt.2 hfit)]
      have hiff := copyOut_slice_iff helen hdata hchunk hfit
      constructor
      · rintro ⟨r, p'', hr, -, hslice⟩
        cases hr
        exact ⟨by omega, fun _ => hiff.1 hslice⟩
      · intro ⟨_, hinside⟩
        exact ⟨_, _, rfl, rfl, hiff.2 (hinside hfit)⟩

/-- A provider with nothing cached, of a store with one chunk of three
bytes. -/
def threeBytes : ChunkProvider MemoryStore :=
  .new { chunks := fun id => if id = 0 then some [1, 2, 3] else none
         ids := {0} } 25

theorem held_threeBytes :
    Held MemoryStore.ops (fun _ s => (.notFound, s)) threeBytes 0
      [1, 2, 3] :=
  .loading threeBytes.store (fun e he => by cases he) rfl

theorem readChunk_slice_threeBytes :
    ∃ r p', readChunk MemoryStore.ops (fun _ s => (.notFound, s))
        (fun _ _ => 7) threeBytes 0 1 5 = some (r, p')
      ∧ SliceOf [1, 2, 3] 1 5 r :=
  (readChunk_slice_iff MemoryStore.ops (fun _ s => (.notFound, s))
    (fun _ _ => 7) threeBytes 0 [1, 2, 3] 1 5 (by omega) (by omega)
    (by decide) (by rw [chunkSizeBytes_eq]; decide) held_threeBytes
    (LruCollector.coherent_new 25) (by decide)).2
    ⟨by unfold RangeSeen; omega, fun _ => .inl (by decide)⟩

/-- Two bytes at offset 4 of a chunk of three: OK, with two bytes of the
memory behind the chunk. -/
theorem readChunk_behind_chunk :
    Held MemoryStore.ops (fun _ s => (.notFound, s)) threeBytes 0 [1, 2, 3]
      ∧ ∃ r p', readChunk MemoryStore.ops (fun _ s => (.notFound, s))
          (fun _ _ => 7) threeBytes 0 4 2 = some (r, p')
        ∧ r.err = .ok ∧ r.readSize = some 2 ∧ r.bytes = [7, 7]
        ∧ ¬ SliceOf [1, 2, 3] 4 2 r := by
  refine ⟨held_threeBytes,
    copyOut ⟨Mem.write (fun _ => 7) 0 [1, 2, 3], 3⟩ 4 2, _, rfl, rfl,
    by decide, by decide, ?_⟩
  rw [SliceOf, if_neg (by rw [chunkSizeBytes_eq]; omega)]
  exact fun h => absurd h.2.1 (by decide)

end ChunkProvider

end Distfs

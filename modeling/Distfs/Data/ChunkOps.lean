/-
The interface of `CompressedStore` that the builder and the reader use,
and what it means for a store behind it to be faithful.

The builder and the chunk provider are modelled over any implementation
of the four operations. `Faithful` is the contract both are verified
against: with a chunk's worth of bytes and an id there is room for, a
write returns OK and is what later reads return, and `available` lists
what was written. `Truthful` asks the same of the calls that return OK.
-/
import Distfs.Common.Basic
import Mathlib.Data.Finset.Basic

namespace Distfs

/-- The operations of `CompressedStore`; `none` is undefined
behaviour. -/
structure ChunkOps (σ : Type) where
  writeChunk : σ → UInt32 → Bytes → Option (ErrorCode × σ)
  readChunk : σ → UInt32 → Option (Except ErrorCode Bytes × σ)
  removeChunk : σ → UInt32 → ErrorCode × σ
  available : σ → Finset UInt32

/-- The store keeps whole chunks: in a `ready` state it holds the chunks
that `view` shows, and there is room for the ids of `room`. -/
structure ChunkOps.Faithful {σ : Type} (ops : ChunkOps σ)
    (ready : σ → Prop) (view : σ → UInt32 → Option Bytes)
    (room : UInt32 → Prop) : Prop where
  write : ∀ s id b, ready s → room id → b.length = chunkSizeBytes →
    ∃ s', ops.writeChunk s id b = some (.ok, s') ∧ ready s'
      ∧ ∀ i, view s' i = if i = id then some b else view s i
  read : ∀ s id b, ready s → view s id = some b →
    ∃ s', ops.readChunk s id = some (.ok b, s') ∧ ready s'
      ∧ view s' = view s
  available : ∀ s id, ready s →
    (id ∈ ops.available s ↔ (view s id).isSome)

/-- An answer OK of the store can be relied on; any operation may fail. -/
structure ChunkOps.Truthful {σ : Type} (ops : ChunkOps σ)
    (ready : σ → Prop) (view : σ → UInt32 → Option Bytes)
    (room : UInt32 → Prop) : Prop where
  write : ∀ s id b s', ready s → room id → b.length = chunkSizeBytes →
    ops.writeChunk s id b = some (.ok, s') →
    ready s' ∧ ∀ i, view s' i = if i = id then some b else view s i
  read : ∀ s id b x s', ready s → view s id = some b →
    ops.readChunk s id = some (.ok x, s') →
    x = b ∧ ready s' ∧ view s' = view s
  error : ∀ s id b err s', ready s → view s id = some b →
    ops.readChunk s id = some (.error err, s') → err ≠ .ok
  available : ∀ s id, ready s →
    (id ∈ ops.available s ↔ (view s id).isSome)

theorem ChunkOps.Faithful.truthful {σ : Type} {ops : ChunkOps σ}
    {ready : σ → Prop} {view : σ → UInt32 → Option Bytes}
    {room : UInt32 → Prop} (h : ops.Faithful ready view room) :
    ops.Truthful ready view room := by
  refine ⟨fun s id b s' hs hid hb hwrite => ?_,
    fun s id b x s' hs hb hread => ?_,
    fun s id b err s' hs hb hread => ?_, h.available⟩
  · obtain ⟨t, hwrite', hready, hview⟩ := h.write s id b hs hid hb
    rw [hwrite] at hwrite'
    cases hwrite'
    exact ⟨hready, hview⟩
  · obtain ⟨t, hread', hready, hview⟩ := h.read s id b hs hb
    rw [hread] at hread'
    cases hread'
    exact ⟨rfl, hready, hview⟩
  · obtain ⟨t, hread', -⟩ := h.read s id b hs hb
    rw [hread] at hread'
    cases hread'

/-- A store that keeps its chunks in memory. -/
structure MemoryStore where
  chunks : UInt32 → Option Bytes
  ids : Finset UInt32

namespace MemoryStore

/-- Nothing stored. -/
def empty : MemoryStore := { chunks := fun _ => none, ids := ∅ }

/-- The operations of a store in memory. -/
def ops : ChunkOps MemoryStore :=
  { writeChunk := fun s id b => some (.ok,
      { chunks := fun i => if i = id then some b else s.chunks i
        ids := insert id s.ids })
    readChunk := fun s id =>
      match s.chunks id with
      | none => some (.error .notFound, s)
      | some b => some (.ok b, s)
    removeChunk := fun s id => (.ok,
      { chunks := fun i => if i = id then none else s.chunks i
        ids := s.ids.erase id })
    available := fun s => s.ids }

/-- The ids are those of the chunks. -/
def Ready (s : MemoryStore) : Prop :=
  ∀ id, id ∈ s.ids ↔ (s.chunks id).isSome

theorem ready_empty : empty.Ready := fun id => by simp [empty]

theorem faithful (room : UInt32 → Prop) :
    ops.Faithful Ready chunks room := by
  refine ⟨fun s id b hs _ _ => ⟨_, rfl, fun i => ?_, fun i => rfl⟩, ?_, ?_⟩
  · show i ∈ insert id s.ids ↔ Option.isSome (if i = id then _ else _)
    rw [Finset.mem_insert, hs i]
    by_cases hi : i = id <;> simp [hi]
  · intro s id b hs hb
    refine ⟨s, ?_, hs, rfl⟩
    show (match s.chunks id with | none => _ | some b => _) = _
    rw [hb]
  · exact fun s id hs => hs id

end MemoryStore

end Distfs

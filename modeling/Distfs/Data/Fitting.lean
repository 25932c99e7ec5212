/-
Stores that keep the chunks that fit.

A `CompressedStore` answers OK to a chunk that does not fit its buffer,
and loses it. So it is not faithful, and `Keeps` asks of it only to keep
what fits.

# The spare

`spared` puts a store in memory beside such a store, which takes over for
good once a chunk does not fit. The two together are faithful
(`Keeps.spared`), and as long as everything fitted it is the store that
answers (`Follows.spared`). What is proved of builders over faithful
stores so holds of those over this one whose chunks fit.
-/
import Distfs.Data.Lockstep

namespace Distfs

namespace ChunkOps

variable {σ : Type} {ops : ChunkOps σ} {fit : Bytes → Prop}
  {ready : σ → Prop} {view : σ → UInt32 → Option Bytes}
  {room : UInt32 → Prop}

/-- `Faithful`, for the chunks that fit. -/
structure Keeps (ops : ChunkOps σ) (fit : Bytes → Prop) (ready : σ → Prop)
    (view : σ → UInt32 → Option Bytes) (room : UInt32 → Prop) : Prop where
  write : ∀ s id b, ready s → room id → b.length = chunkSizeBytes → fit b →
    ∃ s', ops.writeChunk s id b = some (.ok, s') ∧ ready s'
      ∧ ∀ i, view s' i = if i = id then some b else view s i
  read : ∀ s id b, ready s → view s id = some b →
    ∃ s', ops.readChunk s id = some (.ok b, s') ∧ ready s'
      ∧ view s' = view s
  available : ∀ s id, ready s →
    (id ∈ ops.available s ↔ (view s id).isSome)

end ChunkOps

namespace MemoryStore

/-- The store with another chunk. -/
def put (m : MemoryStore) (id : UInt32) (b : Bytes) : MemoryStore :=
  { chunks := fun i => if i = id then some b else m.chunks i
    ids := insert id m.ids }

theorem Ready.put {m : MemoryStore} (h : m.Ready) (id : UInt32)
    (b : Bytes) : (m.put id b).Ready := by
  intro i
  show i ∈ insert id m.ids ↔ Option.isSome (if i = id then _ else _)
  rw [Finset.mem_insert, h i]
  by_cases hi : i = id <;> simp [hi]

end MemoryStore

-- ============================================================= the spare

namespace ChunkOps

section Spared

variable {σ : Type} (ops : ChunkOps σ) (fit : Bytes → Prop)
  [DecidablePred fit]

/-- The store, as long as it is there, and a copy in memory. A chunk that
does not fit goes to the copy only, and the store is given up. -/
def spared : ChunkOps (Option σ × MemoryStore) :=
  { writeChunk := fun x id b =>
      match x.1 with
      | none => some (.ok, (none, x.2.put id b))
      | some s =>
          if fit b then
            (ops.writeChunk s id b).map fun r =>
              (r.1, (some r.2, x.2.put id b))
          else some (.ok, (none, x.2.put id b))
    readChunk := fun x id =>
      match x.1 with
      | none =>
          (MemoryStore.ops.readChunk x.2 id).map fun r => (r.1, (none, r.2))
      | some s => (ops.readChunk s id).map fun r => (r.1, (some r.2, x.2))
    removeChunk := fun x id =>
      match x.1 with
      | none =>
          ((MemoryStore.ops.removeChunk x.2 id).1,
            (none, (MemoryStore.ops.removeChunk x.2 id).2))
      | some s =>
          ((ops.removeChunk s id).1, (some (ops.removeChunk s id).2,
            (MemoryStore.ops.removeChunk x.2 id).2))
    available := fun x =>
      match x.1 with
      | none => x.2.ids
      | some s => ops.available s }

/-- The copy has what the store has, if that is still there. -/
structure Spared (ready : σ → Prop) (view : σ → UInt32 → Option Bytes)
    (x : Option σ × MemoryStore) : Prop where
  copy : x.2.Ready
  store : ∀ s, x.1 = some s → ready s ∧ view s = x.2.chunks

variable {ops fit} {ready : σ → Prop} {view : σ → UInt32 → Option Bytes}
  {room : UInt32 → Prop}

/-- With the copy beside it the store is faithful. -/
theorem Keeps.spared (h : ops.Keeps fit ready view room) :
    (ops.spared fit).Faithful (Spared ready view) (fun x => x.2.chunks)
      room := by
  refine ⟨fun x id b hx hid hb => ?_, fun x id b hx hb => ?_,
    fun x id hx => ?_⟩
  · obtain ⟨s | s, m⟩ := x
    · exact ⟨_, rfl, ⟨hx.copy.put id b, fun s hs => by cases hs⟩,
        fun i => rfl⟩
    · obtain ⟨hready, hview⟩ := hx.store s rfl
      by_cases hfit : fit b
      · obtain ⟨s', hwrite, hready', hview'⟩ := h.write s id b hready hid hb
          hfit
        refine ⟨(some s', m.put id b), ?_, ⟨hx.copy.put id b, ?_⟩,
          fun i => rfl⟩
        · simp only [ChunkOps.spared, if_pos hfit, hwrite, Option.map_some]
        · rintro _ ⟨rfl⟩
          refine ⟨hready', funext fun i => ?_⟩
          rw [hview', hview]
          rfl
      · refine ⟨(none, m.put id b), ?_, ⟨hx.copy.put id b,
          fun s hs => by cases hs⟩, fun i => rfl⟩
        simp only [ChunkOps.spared, if_neg hfit]
  · obtain ⟨s | s, m⟩ := x
    · obtain ⟨m', hread, hready', hview'⟩ :=
        (MemoryStore.faithful room).read m id b hx.copy hb
      refine ⟨(none, m'), ?_, ⟨hready', fun s hs => by cases hs⟩, hview'⟩
      simp only [ChunkOps.spared, hread, Option.map_some]
    · obtain ⟨hready, hview⟩ := hx.store s rfl
      obtain ⟨s', hread, hready', hview'⟩ := h.read s id b hready
        (by rw [hview]; exact hb)
      refine ⟨(some s', m), ?_, ⟨hx.copy, ?_⟩, rfl⟩
      · simp only [ChunkOps.spared, hread, Option.map_some]
      · rintro _ ⟨rfl⟩
        exact ⟨hready', hview'.trans hview⟩
  · obtain ⟨s | s, m⟩ := x
    · exact hx.copy id
    · obtain ⟨hready, hview⟩ := hx.store s rfl
      rw [← hview]
      exact h.available s id hready

/-- As long as everything that was written fits, the store answers. -/
theorem Follows.spared (ops : ChunkOps σ) (fit : Bytes → Prop)
    [DecidablePred fit] :
    ops.noting.Follows (ops.spared fit) (fun s => ∀ b ∈ s.2, fit b)
      fun s x => x.1 = some s.1 := by
  refine ⟨fun s id b err s' _ h hgood => ?_, fun s id x s' _ h hgood => ?_,
    fun s x id _ hx => ?_⟩
  · obtain ⟨r, hwrite, heq⟩ := Option.map_eq_some_iff.1 h
    obtain ⟨rfl, rfl⟩ := Prod.mk.inj heq
    obtain ⟨hbefore, hlast⟩ := List.forall_mem_append.1 hgood
    have hfit : fit b := hlast b (List.mem_singleton_self b)
    refine ⟨hbefore, ?_⟩
    rintro ⟨t, m⟩ ht
    obtain rfl : t = some s.1 := ht
    refine ⟨(some r.2, m.put id b), ?_, rfl⟩
    simp only [ChunkOps.spared, if_pos hfit, hwrite, Option.map_some]
  · obtain ⟨r, hread, heq⟩ := Option.map_eq_some_iff.1 h
    obtain ⟨rfl, rfl⟩ := Prod.mk.inj heq
    refine ⟨hgood, ?_⟩
    rintro ⟨t, m⟩ ht
    obtain rfl : t = some s.1 := ht
    refine ⟨(some r.2, m), ?_, rfl⟩
    simp only [ChunkOps.spared, hread, Option.map_some]
  · obtain ⟨t, m⟩ := x
    obtain rfl : t = some s.1 := hx
    rfl

end Spared

end ChunkOps

end Distfs

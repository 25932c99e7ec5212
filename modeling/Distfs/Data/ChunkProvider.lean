/-
`data/chunk_provider.{h,cc}`: chunks through a cache, from the store or
the network.

This is a call that runs alone. A cache entry has a buffer of a chunk's
size and says how many bytes of it are valid; `heap` says what `new
char[]` finds. The network is whatever `client.fetch_chunk` does to the
store. `none` is undefined behaviour: of the store, or of the collector.
-/
import Distfs.Common.LruCollector
import Distfs.Data.ChunkOps

namespace Distfs

/-- `ChunkProvider::CacheEntry`. -/
structure CacheEntry where
  data : Mem
  len : Nat

/-- `ChunkProvider`. -/
structure ChunkProvider (σ : Type) where
  store : σ
  entries : UInt32 → Option CacheEntry
  collector : LruCollector
  allocs : Nat

/-- What `read_chunk` hands back: the error code, the value of
`*read_size` if it is set, and the bytes copied to the buffer. -/
structure ChunkReply where
  err : ErrorCode
  readSize : Option Nat
  bytes : Bytes

namespace ChunkProvider

variable {σ : Type} (ops : ChunkOps σ)
  (client : UInt32 → σ → ErrorCode × σ) (heap : Nat → Mem)

/-- The constructor. -/
def new (store : σ) (cacheSize : Nat) : ChunkProvider σ :=
  { store := store, entries := fun _ => none
    collector := .new cacheSize, allocs := 0 }

/-- `entries[id] = ent;` and `entries.erase(id);` -/
def setEntry (p : ChunkProvider σ) (id : UInt32) (e : Option CacheEntry) :
    ChunkProvider σ :=
  { p with entries := fun i => if i = id then e else p.entries i }

/-- `collector->update(id)` with its callback `remove_chunk`. -/
def touch (p : ChunkProvider σ) (id : UInt32) : Option (ChunkProvider σ) :=
  match p.collector.update id with
  | none => none
  | some (collector, none) => some { p with collector := collector }
  | some (collector, some gone) =>
      some { p.setEntry gone none with collector := collector }

/-- The two copies of `read_chunk` out of an entry: `memcpy` and
`*read_size`, both of `std::min(len, ce->len - offset)`. -/
def copyOut (e : CacheEntry) (offset len : Nat) : ChunkReply :=
  let n := min len (uint32 (e.len + 2 ^ 32 - offset))
  { err := .ok, readSize := some n, bytes := e.data.read offset n }

/-- `compressedStore.read_chunk`, and again after `client.fetch_chunk` if
the chunk was not there. -/
def fetch (store : σ) (id : UInt32) : Option (Except ErrorCode Bytes × σ) :=
  match ops.readChunk store id with
  | none => none
  | some (.error .notFound, store) =>
      match client id store with
      | (.ok, store) => ops.readChunk store id
      | (err, store) => some (.error err, store)
  | some r => some r

/-- The loading path of `read_chunk`, with a new entry. -/
def load (p : ChunkProvider σ) (id : UInt32) (offset len : Nat) :
    Option (ChunkReply × ChunkProvider σ) :=
  let fresh := heap p.allocs
  match fetch ops client p.store id with
  | none => none
  | some (.error err, store) =>
      some ({ err := err, readSize := none, bytes := [] },
        { p.setEntry id none with store := store, allocs := p.allocs + 1 })
  | some (.ok bytes, store) =>
      let e : CacheEntry :=
        { data := fresh.write 0 bytes, len := bytes.length }
      match touch { p.setEntry id (some e) with
          store := store, allocs := p.allocs + 1 } id with
      | none => none
      | some p => some (copyOut e offset len, p)

/-- `read_chunk`. -/
def readChunk (p : ChunkProvider σ) (id : UInt32) (offset len : Nat) :
    Option (ChunkReply × ChunkProvider σ) :=
  if chunkSizeBytes < uint32 (offset + len) then
    some ({ err := .internalError, readSize := none, bytes := [] }, p)
  else
    match p.entries id with
    | none => load ops client heap p id offset len
    | some e =>
        if 0 < e.len then
          match p.touch id with
          | none => none
          | some p => some (copyOut e offset len, p)
        else load ops client heap p id offset len

-- ================================================= serving what is stored

/-- The provider serves the chunks `chunks`: they are in the store, and
what the cache has of them is valid. -/
structure Serving (ready : σ → Prop) (view : σ → UInt32 → Option Bytes)
    (chunks : UInt32 → Option Bytes) (p : ChunkProvider σ) : Prop where
  ready : ready p.store
  stored : ∀ id c, chunks id = some c → view p.store id = some c
  cached : ∀ id e c, p.entries id = some e → 0 < e.len →
    chunks id = some c → e.len = c.length ∧ e.data.read 0 c.length = c
  collector : p.collector.Coherent
  size : 0 < p.collector.size

section Serving

variable {ops : ChunkOps σ} {ready : σ → Prop}
  {view : σ → UInt32 → Option Bytes} {room : UInt32 → Prop}
  {chunks : UInt32 → Option Bytes} {p : ChunkProvider σ}

theorem serving_new {store : σ} {cacheSize : Nat} (hready : ready store)
    (hstored : ∀ id c, chunks id = some c → view store id = some c)
    (hsize : 0 < cacheSize) :
    Serving ready view chunks (new store cacheSize) :=
  ⟨hready, hstored, fun id e c he => (by cases he),
    LruCollector.coherent_new cacheSize, hsize⟩

/-- Evicting entries loses nothing. -/
theorem Serving.touch (h : Serving ready view chunks p) (id : UInt32) :
    ∃ p', p.touch id = some p' ∧ Serving ready view chunks p' := by
  obtain ⟨c', hupdate, hcoherent, hsize, -⟩ :=
    LruCollector.update_spec h.collector id (.inl h.size)
  have hsize' : 0 < c'.size := by
    rw [hsize]
    exact h.size
  unfold ChunkProvider.touch
  rw [hupdate]
  cases Recency.evicted p.collector.size p.collector.ids id with
  | none => exact ⟨_, rfl, h.ready, h.stored, h.cached, hcoherent, hsize'⟩
  | some gone =>
      refine ⟨_, rfl, h.ready, h.stored, fun i e c he => ?_, hcoherent,
        hsize'⟩
      have he' : (if i = gone then none else p.entries i) = some e := he
      split at he'
      · cases he'
      · exact h.cached i e c he'

theorem copyOut_eq {e : CacheEntry} {c : Bytes} {offset len : Nat}
    (hlen : e.len = c.length) (hdata : e.data.read 0 c.length = c)
    (hwhole : c.length = chunkSizeBytes)
    (hfit : offset + len ≤ chunkSizeBytes) :
    copyOut e offset len
      = { err := .ok, readSize := some len
          bytes := (c.drop offset).take len } := by
  have hchunk := chunkSizeBytes_eq
  have hrest : uint32 (e.len + 2 ^ 32 - offset) = chunkSizeBytes - offset := by
    unfold uint32
    omega
  have hmin : min len (chunkSizeBytes - offset) = len := by omega
  have hslice : e.data.read offset len = (c.drop offset).take len := by
    have hwindow := @Mem.take_drop_read e.data 0 c.length offset len (by omega)
    rw [hdata, Nat.zero_add] at hwindow
    exact hwindow.symm
  rw [copyOut, hrest, hmin, hslice]

/-- A read inside a chunk that is served delivers its bytes. -/
theorem Serving.readChunk (hf : ops.Faithful ready view room)
    (hwhole : ∀ id c, chunks id = some c → c.length = chunkSizeBytes)
    (h : Serving ready view chunks p) {id : UInt32} {c : Bytes}
    (hc : chunks id = some c) {offset len : Nat}
    (hfit : offset + len ≤ chunkSizeBytes) :
    ∃ p', readChunk ops client heap p id offset len
        = some ({ err := .ok, readSize := some len
                  bytes := (c.drop offset).take len }, p')
      ∧ Serving ready view chunks p' := by
  have hchunk := chunkSizeBytes_eq
  have hload : ∃ p', load ops client heap p id offset len
        = some ({ err := .ok, readSize := some len
                  bytes := (c.drop offset).take len }, p')
      ∧ Serving ready view chunks p' := by
    obtain ⟨s', hread, hready, hview⟩ :=
      hf.read p.store id c h.ready (h.stored id c hc)
    have hdata : ((heap p.allocs).write 0 c).read 0 c.length = c :=
      Mem.read_write_self _ 0 c
    have hserving : Serving ready view chunks
        { p.setEntry id (some
            { data := (heap p.allocs).write 0 c, len := c.length }) with
          store := s', allocs := p.allocs + 1 } := by
      refine ⟨hready, fun i c' hc' => ?_, fun i e c' he hpos hc' => ?_,
        h.collector, h.size⟩
      · rw [hview]
        exact h.stored i c' hc'
      · have he' : (if i = id then some _ else p.entries i) = some e := he
        split at he'
        · next hi =>
          rw [hi, hc, Option.some.injEq] at hc'
          rw [Option.some.injEq] at he'
          rw [← he', ← hc']
          exact ⟨rfl, hdata⟩
        · exact h.cached i e c' he' hpos hc'
    obtain ⟨p', htouch, hserving'⟩ := hserving.touch id
    refine ⟨p', ?_, hserving'⟩
    unfold load fetch
    simp only [hread, htouch]
    rw [copyOut_eq rfl hdata (hwhole id c hc) hfit]
  unfold ChunkProvider.readChunk
  rw [uint32_of_lt (by omega), if_neg (by omega)]
  cases he : p.entries id with
  | none => exact hload
  | some e =>
      simp only
      split
      · next hpos =>
        obtain ⟨hlen, hdata⟩ := h.cached id e c he hpos hc
        obtain ⟨p', htouch, hserving'⟩ := h.touch id
        refine ⟨p', ?_, hserving'⟩
        rw [htouch, copyOut_eq hlen hdata (hwhole id c hc) hfit]
      · exact hload

end Serving

end ChunkProvider

end Distfs

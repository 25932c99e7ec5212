/-
A store that is filled over the network.

# The call

`fetchInto` is `fetch_chunk` with the write it makes: what `write_chunk`
answers is ignored. The state counts the operations on the store, as
`CompressedStore.ops` does, so that each call meets a network of its own.

# What a node has

`Replica` says that every file is the published block of its id. A call
keeps that, whatever the peers send (`Replica.fetched`), and if it gets
as far as a node that has the block, the block is there afterwards
(`fetchChunk_honest`). So a store of any size brings the chunks
(`Replica.brings`).

A node takes for the block whatever has its checksum. So all of this is
about calls to which no peer answers other bytes with the checksum of the
block (`Uncollided`).
-/
import Distfs.Data.CompressedOps
import Distfs.Data.FetchedRead
import Distfs.Data.Restart
import Distfs.Network.ChunkTransfer

namespace Distfs

open Transfer

namespace ChunkStore

variable {s t : ChunkStore} {io : Io} {id i : UInt32} {b : Bytes}

/-- An update of the collector removes files and makes none. -/
theorem touch_shrinks (h : s.touch io id = some t)
    (hfile : t.fileOf i = some b) : s.fileOf i = some b := by
  have hremove : ∀ (s : ChunkStore) (last : UInt32),
      (s.removeChunk io last).2.fileOf i = some b → s.fileOf i = some b := by
    intro s last hlast
    by_cases hi : i = last
    · rw [← hi] at hlast
      unfold removeChunk at hlast
      split at hlast
      · exact hlast
      · split at hlast
        · exact hlast
        · have hnone : ((s.setFile i none).fileOf i) = some b := hlast
          rw [fileOf_setFile, if_pos rfl] at hnone
          cases hnone
    · rwa [fileOf_removeChunk_ne hi] at hlast
  unfold touch at h
  split at h
  · cases h
  · cases h
    exact hfile
  · next collector last _ =>
    cases h
    exact hremove { s with collector := collector } last hfile

/-- The loop of the constructor removes files and makes none. -/
theorem enter_shrinks {ios : UInt32 → Io} (fuel : Nat) :
    ∀ (it : Option UInt32) (s : ChunkStore), s.collector.Coherent →
      enter ios fuel it s = some t →
      t.collector.Coherent ∧ t.collector.size = s.collector.size
        ∧ ∀ i b, t.fileOf i = some b → s.fileOf i = some b := by
  induction fuel with
  | zero =>
      intro it s hs h
      cases it with
      | none =>
          cases h
          exact ⟨hs, rfl, fun _ _ hfile => hfile⟩
      | some id => cases h
  | succ fuel ih =>
      intro it s hs h
      cases it with
      | none =>
          cases h
          exact ⟨hs, rfl, fun _ _ hfile => hfile⟩
      | some id =>
          rw [enter] at h
          split at h
          · cases h
          · next u htouch =>
            split at h
            · obtain ⟨-, hu, hsize, -⟩ := touch_spec hs htouch
              obtain ⟨ht, hsize', hfiles⟩ := ih _ u hu h
              exact ⟨ht, hsize'.trans hsize, fun i b hfile =>
                touch_shrinks htouch (hfiles i b hfile)⟩
            · cases h

end ChunkStore

namespace ConnectionPool

/-- `store.write_chunk`, its answer ignored. -/
def storeWrites (io : Io) :
    List (UInt32 × Bytes) → ChunkStore → Option ChunkStore
  | [], s => some s
  | (id, block) :: rest, s =>
      match s.writeChunk io id block with
      | none => none
      | some (_, s) => storeWrites io rest s

/-- `fetch_chunk`, as the `s.2`-th operation on the store; `none` if it is
undefined or does not come back. -/
def fetchInto (checksum : Bytes → Bytes) (hashes : List Bytes)
    (ios : Nat → Io) (heap : Nat → Mem) (net : Nat → UInt32 → List Round)
    (id : UInt32) (s : ChunkStore × Nat) :
    Option (ErrorCode × (ChunkStore × Nat)) :=
  match fetchChunk checksum hashes id (heap s.2) (net s.2 id) with
  | (.ret code, writes) =>
      (storeWrites (ios s.2) writes s.1).map fun t => (code, (t, s.2 + 1))
  | (.fault, _) => none
  | (.running, _) => none

-- ==================================================== an honest peer

/-- The stream of a node that has the block and is not cut off. -/
def Serves (published : UInt32 → Option Bytes) (id : UInt32) (st : Stream) :
    Prop :=
  ∃ store store' io accepts reply block, published id = some block
    ∧ store.collector.Coherent ∧ io.AllOk ∧ (∀ a ∈ accepts, a = true)
    ∧ store.fileOf id = some block
    ∧ DistfsService.getChunk store io id accepts = some (reply, store')
    ∧ st = DistfsService.asStream reply

/-- Attempts that are answered within the buffer, and then one that a
node with the block answers. -/
def Reaches (published : UInt32 → Option Bytes) (id : UInt32)
    (rounds : List Round) : Prop :=
  ∃ pre r post, rounds = pre ++ r :: post
    ∧ (∀ q ∈ pre, ∃ st, connectionForBlock q id = some st
      ∧ st.bytes.length ≤ chunkSizeBytes)
    ∧ ∃ st, connectionForBlock r id = some st ∧ Serves published id st

/-- The published blocks: the metadata has the checksum of each. -/
structure Checked (checksum : Bytes → Bytes) (hashes : List Bytes)
    (published : UInt32 → Option Bytes) : Prop where
  length : ∀ id block, published id = some block →
    block.length ≤ chunkSizeBytes
  hash : ∀ id block, published id = some block →
    hashes[id.toNat]? = some (checksum block)
  listed : ∀ id, id.toNat < hashes.length →
    ∃ block, published id = some block

/-- The bytes are the published block, if they have its checksum. -/
def Uncollided (checksum : Bytes → Bytes)
    (published : UInt32 → Option Bytes) (id : UInt32) (x : Bytes) : Prop :=
  ∀ block, published id = some block → checksum x = checksum block →
    x = block

/-- No peer answers other bytes with the checksum of the block. -/
def NoCollision (checksum : Bytes → Bytes)
    (published : UInt32 → Option Bytes) (id : UInt32)
    (rounds : List Round) : Prop :=
  ∀ r ∈ rounds, ∀ st, connectionForBlock r id = some st →
    Uncollided checksum published id st.bytes

variable {checksum : Bytes → Bytes} {hashes : List Bytes}
  {published : UInt32 → Option Bytes} {id : UInt32} {block : Bytes}

theorem Serves.bytes {st : Stream} (h : Serves published id st)
    (hlen : ∀ block, published id = some block →
      block.length ≤ chunkSizeBytes) :
    st.ok = true ∧ published id = some st.bytes := by
  obtain ⟨store, store', io, accepts, reply, block, hblock, hc, hio,
    haccepts, hfile, hget, rfl⟩ := h
  obtain ⟨hok, hcat, -⟩ := DistfsService.getChunk_ok hc hio haccepts hfile
    (hlen block hblock) hget
  refine ⟨by simp [DistfsService.asStream, hok], ?_⟩
  rw [hblock, Stream.bytes, DistfsService.asStream, hcat]

/-- A call that reaches a node with the block stores the block, whatever
the peers before it sent. -/
theorem fetchChunk_honest (h : Checked checksum hashes published)
    (hblock : published id = some block) {rounds : List Round}
    (hsent : NoCollision checksum published id rounds)
    (hreaches : Reaches published id rounds) (buff : Mem) :
    fetchChunk checksum hashes id buff rounds
      = (.ret .ok, [(id, block)]) := by
  obtain ⟨pre, r, post, rfl, hpre, st, hst, hserves⟩ := hreaches
  obtain ⟨hok, hbytes⟩ := hserves.bytes fun b hb => h.length id b hb
  rw [hblock, Option.some.injEq] at hbytes
  have hhash := h.hash id block hblock
  obtain ⟨hlt, -⟩ := List.getElem?_eq_some_iff.1 hhash
  induction pre generalizing buff with
  | nil =>
      rw [hbytes]
      apply fetchChunk_accepted buff post hst
      · exact ⟨by rw [← hbytes]; exact h.length id block hblock,
          fun _ => hlt⟩
      · exact ⟨hok, by rw [← hbytes]; exact hhash⟩
  | cons q pre ih =>
      obtain ⟨st', hst', hfits⟩ := hpre q List.mem_cons_self
      have hrest := fun buff => ih buff
        (fun r hr => hsent r (List.mem_cons_of_mem _ hr))
        fun q hq => hpre q (List.mem_cons_of_mem _ hq)
      rw [List.cons_append]
      rcases @fetchChunk_cons checksum hashes id buff q
          (pre ++ r :: post) with
        ⟨hnone, -⟩ | ⟨st'', hst'', hcase⟩
      · rw [hst'] at hnone
        cases hnone
      · rw [hst', Option.some.injEq] at hst''
        subst hst''
        rcases hcase with ⟨hout, -⟩ | ⟨-, hacc, heq⟩ | ⟨-, -, buff', heq⟩
        · exact absurd ⟨hfits, fun _ => hlt⟩ hout
        · -- an attempt that is accepted has the same bytes
          have hsame := hacc.2
          rw [hhash, Option.some.injEq] at hsame
          rw [heq, hsent q List.mem_cons_self st' hst' block hblock
            hsame.symm]
        · rw [heq, hrest buff']

/-- Whatever else the peers send, all that is written is the published
block. -/
theorem fetchChunk_published (h : Checked checksum hashes published)
    (rounds : List Round)
    (hsent : NoCollision checksum published id rounds) :
    ∀ buff : Mem, ∀ w ∈ (fetchChunk checksum hashes id buff rounds).2,
      w.1 = id ∧ published id = some w.2 := by
  induction rounds with
  | nil => exact fun buff w hw => absurd hw List.not_mem_nil
  | cons r rs ih =>
      intro buff w hw
      rcases @fetchChunk_cons checksum hashes id buff r rs with
        ⟨-, heq⟩
          | ⟨st, hst, ⟨-, heq⟩ | ⟨hin, hacc, heq⟩ | ⟨-, -, buff', heq⟩⟩
      · rw [heq] at hw
        cases hw
      · rw [heq] at hw
        cases hw
      · rw [heq] at hw
        obtain rfl := List.mem_singleton.1 hw
        obtain ⟨block, hblock⟩ := h.listed id (hin.2 hacc.1)
        have hhash := h.hash id block hblock
        rw [hacc.2, Option.some.injEq] at hhash
        refine ⟨rfl, ?_⟩
        rw [hblock, hsent r List.mem_cons_self st hst block hblock hhash]
      · rw [heq] at hw
        exact ih (fun q hq => hsent q (List.mem_cons_of_mem _ hq)) buff' w hw

/-- A call that comes back has found no peer, or writes one block. -/
theorem fetchChunk_ret (rounds : List Round) :
    ∀ (buff : Mem) {code : ErrorCode} {writes : List (UInt32 × Bytes)},
      fetchChunk checksum hashes id buff rounds = (.ret code, writes) →
      code = .notFound ∧ writes = []
        ∨ code = .ok ∧ ∃ block, writes = [(id, block)] := by
  induction rounds with
  | nil =>
      intro buff code writes h
      cases h
  | cons r rs ih =>
      intro buff code writes h
      rcases @fetchChunk_cons checksum hashes id buff r rs with
        ⟨-, heq⟩ | ⟨st, -, ⟨-, heq⟩ | ⟨-, -, heq⟩ | ⟨-, -, buff', heq⟩⟩
      · rw [heq] at h
        cases h
        exact .inl ⟨rfl, rfl⟩
      · rw [heq] at h
        cases h
      · rw [heq] at h
        cases h
        exact .inr ⟨rfl, _, rfl⟩
      · rw [heq] at h
        exact ih buff' h

end ConnectionPool

-- ============================================================ a replica

/-- A store with room for a chunk, whose files are published blocks. -/
structure Replica (published : UInt32 → Option Bytes) (s : ChunkStore) :
    Prop where
  coherent : s.collector.Coherent
  size : 0 < s.collector.size
  files : ∀ id block, s.fileOf id = some block → published id = some block

namespace Replica

variable {published : UInt32 → Option Bytes} {s t : ChunkStore} {io : Io}
  {id : UInt32} {block : Bytes}

theorem new {size : Nat} (hsize : 0 < size) :
    Replica published (ChunkStore.new size) :=
  ⟨LruCollector.coherent_new size, hsize, fun id block hfile => by
    cases hfile⟩

/-- A store that is started over published blocks is a replica. -/
theorem construct {size : Nat} (hsize : 0 < size) {dir : Listing}
    {starts : UInt32 → Io} {files : ChunkPath → Option Bytes}
    (hfiles : ∀ id block, files (idToPath id) = some block →
      published id = some block)
    (h : ChunkStore.construct dir starts size files = some t) :
    Replica published t := by
  obtain ⟨hcoherent, hsize', hsub⟩ :=
    ChunkStore.enter_shrinks _ _ _ (LruCollector.coherent_new size) h
  refine ⟨hcoherent, ?_, fun id block hfile => ?_⟩
  · rw [hsize']
    exact hsize
  · exact hfiles id block (hsub id block hfile)

theorem touch (h : Replica published s) (ht : s.touch io id = some t) :
    Replica published t := by
  obtain ⟨-, hcoherent, hsize, -⟩ := ChunkStore.touch_spec h.coherent ht
  refine ⟨hcoherent, ?_, fun i b hfile => ?_⟩
  · rw [hsize]
    exact h.size
  · exact h.files i b (ChunkStore.touch_shrinks ht hfile)

/-- A file that is there is read. -/
theorem readChunk (h : Replica published s) (hio : io.AllOk)
    (hfile : s.fileOf id = some block)
    (hlen : block.length ≤ chunkSizeBytes) :
    ∃ t, s.readChunk io id = some (.ok block, t) ∧ Replica published t := by
  obtain ⟨t, ht⟩ := ChunkStore.touch_defined h.coherent (.inl h.size) io id
  exact ⟨t, ChunkStore.readChunk_touch hio hfile hlen ht, h.touch ht⟩

theorem setFile (h : Replica published s)
    (hblock : published id = some block) :
    Replica published (s.setFile id (some block)) := by
  refine ⟨h.coherent, h.size, fun i b hfile => ?_⟩
  rw [ChunkStore.fileOf_setFile] at hfile
  split at hfile
  · next hi =>
    rw [hi, hblock]
    exact hfile
  · exact h.files i b hfile

/-- A published block is written. -/
theorem writeChunk (h : Replica published s) (hio : io.AllOk)
    (hblock : published id = some block) :
    ∃ t, s.writeChunk io id block = some (.ok, t) ∧ Replica published t
      ∧ t.fileOf id = some block := by
  obtain ⟨t, ht⟩ := ChunkStore.touch_defined
    (s := s.setFile id (some block)) h.coherent (.inl h.size) io id
  have hwrite := ChunkStore.writeChunk_touch hio ht
  obtain ⟨hcoherent, hsize, hfiles⟩ := (h.setFile hblock).touch ht
  refine ⟨_, hwrite, ⟨hcoherent, hsize, hfiles⟩, ?_⟩
  exact (ChunkStore.writeChunk_ok h.coherent hio hwrite).2.1

/-- Whatever else a write comes to, as long as it is not cut short it
leaves the block or nothing new. -/
theorem of_writeChunk (h : Replica published s)
    (hprogress : ∀ c ∈ io.script, c.Progress)
    (hblock : published id = some block) {code : ErrorCode}
    (hwrite : s.writeChunk io id block = some (code, t)) :
    Replica published t := by
  unfold ChunkStore.writeChunk at hwrite
  split at hwrite
  · cases hwrite
    exact h
  · split at hwrite
    · cases hwrite
      exact h
    · rw [writeLoop_of_progress block io.script hprogress] at hwrite
      simp only [Bool.false_eq_true, if_false] at hwrite
      split at hwrite
      · cases hwrite
      · next t' ht =>
        cases hwrite
        obtain ⟨hcoherent, hsize, hfiles⟩ := (h.setFile hblock).touch ht
        exact ⟨hcoherent, hsize, hfiles⟩

-- =========================================================== fetching

open ConnectionPool

variable {checksum : Bytes → Bytes} {hashes : List Bytes} {ios : Nat → Io}
  {heap : Nat → Mem} {net : Nat → UInt32 → List Round}
  {s t : ChunkStore × Nat}

/-- A call that comes back leaves a replica. If it returns OK, the block
is there. -/
theorem fetched (hc : Checked checksum hashes published)
    (h : Replica published s.1) (hios : ∀ n, (ios n).AllOk)
    (hsent : NoCollision checksum published id (net s.2 id))
    {code : ErrorCode}
    (hcode : (fetchChunk checksum hashes id (heap s.2) (net s.2 id)).1
      = .ret code) :
    ∃ t, fetchInto checksum hashes ios heap net id s = some (code, t)
      ∧ Replica published t.1
      ∧ (code = .notFound ∧ t.1 = s.1
        ∨ code = .ok ∧ ∃ block, published id = some block
          ∧ t.1.fileOf id = some block) := by
  obtain ⟨writes, hfetch⟩ : ∃ writes,
      fetchChunk checksum hashes id (heap s.2) (net s.2 id)
        = (.ret code, writes) := ⟨_, Prod.ext hcode rfl⟩
  unfold fetchInto
  rw [hfetch]
  rcases fetchChunk_ret _ _ hfetch with ⟨rfl, rfl⟩ | ⟨rfl, block, rfl⟩
  · exact ⟨_, rfl, h, .inl ⟨rfl, rfl⟩⟩
  · obtain ⟨-, hblock⟩ := fetchChunk_published hc (net s.2 id) hsent
      (heap s.2) (id, block) (by rw [hfetch]; exact List.mem_singleton_self _)
    obtain ⟨t, hwrite, hreplica, hfile⟩ := h.writeChunk (hios s.2) hblock
    refine ⟨(t, s.2 + 1), ?_, hreplica, .inr ⟨rfl, block, hblock, hfile⟩⟩
    simp only [storeWrites, hwrite, Option.map_some]

/-- The chunks that stand compressed in the published blocks. -/
def contentOf (z : Lz4) (published : UInt32 → Option Bytes) (id : UInt32) :
    Option Bytes :=
  (published id).map fun block => (z.decompressSafe block chunkSizeBytes).2

/-- Every published block is a whole chunk that fits, compressed. -/
def Compressed (z : Lz4) (published : UInt32 → Option Bytes) : Prop :=
  ∀ id block, published id = some block →
    ∃ c, c.length = chunkSizeBytes ∧ z.Fits c chunkSizeBytes
      ∧ block = (z.compressDefault c chunkSizeBytes).2

/-- Every call for a published block gets to a node that has it, or, if
that is allowed, comes back without. -/
def Meets (fails : Prop) (checksum : Bytes → Bytes) (hashes : List Bytes)
    (published : UInt32 → Option Bytes) (heap : Nat → Mem)
    (net : Nat → UInt32 → List Round) : Prop :=
  ∀ n id block, published id = some block →
    Reaches published id (net n id)
      ∨ fails ∧ ∃ code,
        (fetchChunk checksum hashes id (heap n) (net n id)).1 = .ret code

variable {z : Lz4} (hz : z.Documented) (hios : ∀ n, (ios n).AllOk)

include hz in
theorem content_of_block (hcompressed : Compressed z published)
    (hblock : published id = some block) :
    ∃ c, c.length = chunkSizeBytes ∧ contentOf z published id = some c
      ∧ z.decompressSafe block chunkSizeBytes = ((c.length : Int), c) := by
  obtain ⟨c, hc, hfits, rfl⟩ := hcompressed id block hblock
  have hback := CompressedStore.decompress_compress hz hc hfits
  refine ⟨c, hc, ?_, hback⟩
  rw [contentOf, hblock, Option.map_some, hback]

include hz hios in
/-- A block that is there is read as its chunk. -/
theorem readChunk_compressed (hcompressed : Compressed z published)
    (h : Replica published s.1) (hfile : s.1.fileOf id = some block) :
    ∃ c t, (CompressedStore.ops z ios).readChunk s id = some (.ok c, t)
      ∧ contentOf z published id = some c ∧ Replica published t.1 := by
  have hblock := h.files id block hfile
  obtain ⟨c, hc, hcontent, hback⟩ :=
    content_of_block hz hcompressed hblock
  have hlen : block.length ≤ chunkSizeBytes := by
    obtain ⟨c', -, -, rfl⟩ := hcompressed id block hblock
    exact CompressedStore.length_compress_le hz c'
  obtain ⟨t, hread, ht⟩ := h.readChunk (hios s.2) hfile hlen
  have hnonneg : ¬ (c.length : Int) < 0 := by omega
  refine ⟨c, (t, s.2 + 1), ?_, hcontent, ht⟩
  simp only [CompressedStore.ops, CompressedStore.readChunk, hread, hback,
    if_neg hnonneg, Int.toNat_natCast, List.take_length]

include hz hios in
/-- A replica of any size brings the published chunks: what is not there
is fetched, and stays long enough to be read. -/
theorem brings {fails : Prop} (hc : Checked checksum hashes published)
    (hcompressed : Compressed z published)
    (hnet : Meets fails checksum hashes published heap net)
    (hsent : ∀ n id, NoCollision checksum published id (net n id))
    {client : UInt32 → ChunkStore × Nat → ErrorCode × (ChunkStore × Nat)}
    (hclient : ∀ id s r, fetchInto checksum hashes ios heap net id s = some r →
      client id s = r) :
    ChunkProvider.Brings fails (CompressedStore.ops z ios) client
      (fun s => Replica published s.1) (contentOf z published) := by
  refine ⟨fun id c hid => ?_, fun s id c h hid => ?_⟩
  · obtain ⟨block, hblock, -⟩ := Option.map_eq_some_iff.1 hid
    obtain ⟨c', hlen, hcontent, -⟩ :=
      content_of_block hz hcompressed hblock
    rw [hcontent, Option.some.injEq] at hid
    rw [← hid]
    exact hlen
  obtain ⟨block, hblock, -⟩ := Option.map_eq_some_iff.1 hid
  have hread : ∀ {s : ChunkStore × Nat}, Replica published s.1 →
      (s.1.fileOf id).isSome →
      ∃ t, (CompressedStore.ops z ios).readChunk s id = some (.ok c, t)
        ∧ Replica published t.1 := by
    intro s hs hsome
    obtain ⟨b, hfile⟩ := Option.isSome_iff_exists.1 hsome
    obtain ⟨c', t, hread, hcontent, ht⟩ :=
      readChunk_compressed hz hios hcompressed hs hfile
    rw [hid, Option.some.injEq] at hcontent
    rw [hcontent]
    exact ⟨t, hread, ht⟩
  unfold ChunkProvider.fetch
  cases hfile : s.1.fileOf id with
  | some b =>
      obtain ⟨t, ht, hreplica⟩ := hread h (by rw [hfile]; rfl)
      rw [ht]
      exact ⟨_, t, rfl, hreplica, .inl rfl⟩
  | none =>
      have hmissing : (CompressedStore.ops z ios).readChunk s id
          = some (.error .notFound, (s.1, s.2 + 1)) := by
        simp only [CompressedStore.ops, CompressedStore.readChunk,
          ChunkStore.readChunk, (hios s.2).openOk, hfile,
          Bool.false_eq_true, if_false]
      obtain ⟨code, hcode, hfound⟩ : ∃ code,
          (fetchChunk checksum hashes id (heap (s.2 + 1))
            (net (s.2 + 1) id)).1 = .ret code ∧ (code = .ok ∨ fails) := by
        rcases hnet (s.2 + 1) id block hblock with hreaches | ⟨hfails, hret⟩
        · rw [fetchChunk_honest hc hblock (hsent _ id) hreaches]
          exact ⟨.ok, rfl, .inl rfl⟩
        · obtain ⟨code, hcode⟩ := hret
          exact ⟨code, hcode, .inr hfails⟩
      obtain ⟨t, hfetch, hreplica, hend⟩ :=
        fetched (s := (s.1, s.2 + 1)) hc h hios (hsent _ id) hcode
      simp only [hmissing, hclient id _ _ hfetch]
      rcases hend with ⟨rfl, -⟩ | ⟨rfl, b, -, hb⟩
      · rcases hfound with hok | hfails
        · cases hok
        · exact ⟨_, t, rfl, hreplica, .inr ⟨hfails, _, rfl, by simp⟩⟩
      · obtain ⟨t', ht', hreplica'⟩ := hread hreplica (by rw [hb]; rfl)
        exact ⟨.ok c, t', ht', hreplica', .inl rfl⟩

end Replica

end Distfs

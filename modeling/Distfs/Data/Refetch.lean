/-
A chunk between its fetch and its re-read.

`ChunkProvider::read_chunk` that finds no chunk in the store has it
fetched, which writes it to the store, and then reads it from there. The
store is bounded, so what other threads read and write in between may push
it out, and the second read fails although nothing went wrong.

`uses` remembers which chunks were used in the store, newest first. The
second read succeeds as long as fewer different chunks than the store has
room for were used since (`refetch_iff`).
-/
import Distfs.Data.CacheRuns
import Distfs.Data.CompressedStore
import Distfs.Data.StoreRuns

namespace Distfs

open Transfer

-- ============================================ a store that is only read

/-- `stored` is how the store holds chunks: what it decompresses to is a
whole chunk. -/
structure Lz4.Stores (z : Lz4) (stored : UInt32 → Bytes) : Prop where
  small : ∀ id, (stored id).length ≤ chunkSizeBytes
  whole : ∀ id, (z.decompressSafe (stored id) chunkSizeBytes).1
    = chunkSizeBytes

namespace ChunkStore

/-- The store holds the chunks its collector tracks, each as `stored`. -/
structure Stocked (stored : UInt32 → Bytes) (s : ChunkStore)
    (used : List UInt32) : Prop where
  tracks : s.collector.Tracks used
  fileOf : ∀ id, s.fileOf id
    = if id ∈ s.collector.ids then some (stored id) else none

variable {z : Lz4} {stored : UInt32 → Bytes} {s : ChunkStore}
  {used : List UInt32} {io : Io} {id : UInt32}

/-- A new store is stocked with nothing. -/
theorem stocked_new {size : Nat} (hsize : 0 < size) :
    Stocked stored (new size) [] :=
  ⟨LruCollector.tracks_new hsize, fun _ => rfl⟩

/-- After a use of a chunk that has its file. -/
theorem Stocked.touch (hio : io.AllOk) (htracks : s.collector.Tracks used)
    (hself : s.fileOf id = some (stored id))
    (hothers : ∀ i, i ≠ id → s.fileOf i
      = if i ∈ s.collector.ids then some (stored i) else none) :
    ∃ t, s.touch io id = some t ∧ Stocked stored t (id :: used)
      ∧ t.collector.size = s.collector.size := by
  obtain ⟨t, htouch, htracks', hsize, hevicts⟩ :=
    touch_tracks htracks hio.unlink id
  refine ⟨t, htouch, ⟨htracks', fun i => ?_⟩, hsize⟩
  have hids := htracks.mem_ids_update htracks' hsize i
  rw [hevicts.fileOf]
  by_cases hi : i = id
  · subst hi
    rw [if_neg fun hgone => Recency.evicted_ne hgone rfl,
      if_pos (hids.2 (.inl rfl))]
    exact hself
  · rw [hothers i hi]
    by_cases hgone : Recency.evicted s.collector.size s.collector.ids id
        = some i
    · rw [if_pos hgone, if_neg]
      intro hmem
      rcases hids.1 hmem with hmem | hmem
      · exact hi hmem
      · exact hmem.2 hgone
    · rw [if_neg hgone]
      refine if_congr ⟨fun hmem => hids.2 (.inr ⟨hmem, hgone⟩), ?_⟩ rfl rfl
      intro hmem
      exact ((hids.1 hmem).resolve_left hi).1

/-- Reading a chunk that is there. -/
theorem Stocked.read (hz : z.Stores stored) (h : Stocked stored s used)
    (hio : io.AllOk) (hid : id ∈ s.collector.ids) :
    ∃ bytes t, CompressedStore.readChunk z s io id = some (.ok bytes, t)
      ∧ Stocked stored t (id :: used)
      ∧ t.collector.size = s.collector.size := by
  have hfile : s.fileOf id = some (stored id) := by
    rw [h.fileOf, if_pos hid]
  obtain ⟨t, htouch, hstocked, hsize⟩ :=
    Stocked.touch hio h.tracks hfile fun i _ => h.fileOf i
  have hread := readChunk_touch hio hfile (hz.small id) htouch
  have hwhole : ¬ (z.decompressSafe (stored id) chunkSizeBytes).1 < 0 := by
    rw [hz.whole]
    exact not_lt.2 (Int.natCast_nonneg _)
  refine ⟨(z.decompressSafe (stored id) chunkSizeBytes).2.take
    (z.decompressSafe (stored id) chunkSizeBytes).1.toNat, t, ?_, hstocked,
    hsize⟩
  simp only [CompressedStore.readChunk, hread, if_neg hwhole]

/-- Reading a chunk that is not. -/
theorem Stocked.read_missing (h : Stocked stored s used) (hio : io.AllOk)
    (hid : id ∉ s.collector.ids) :
    CompressedStore.readChunk z s io id = some (.error .notFound, s) := by
  have hread := readChunk_missing hio
    ((h.fileOf id).trans (if_neg hid))
  unfold CompressedStore.readChunk
  rw [hread]

/-- Writing a chunk. -/
theorem Stocked.write (h : Stocked stored s used) (hio : io.AllOk)
    (id : UInt32) :
    ∃ t, s.writeChunk io id (stored id) = some (.ok, t)
      ∧ Stocked stored t (id :: used)
      ∧ t.collector.size = s.collector.size := by
  have hself : (s.setFile id (some (stored id))).fileOf id
      = some (stored id) := by
    rw [fileOf_setFile, if_pos rfl]
  obtain ⟨t, htouch, hstocked, hsize⟩ :=
    Stocked.touch (s := s.setFile id (some (stored id))) hio h.tracks hself
      fun i hi => by
        rw [fileOf_setFile, if_neg hi]
        exact h.fileOf i
  exact ⟨_, writeChunk_touch hio htouch, ⟨hstocked.tracks, hstocked.fileOf⟩,
    hsize⟩

end ChunkStore

namespace Pc

/-- The call has failed, or is bound to. -/
@[simp] def failing : Pc → Bool
  | .fail _ _ _ => true
  | .done _ r => r.err ≠ .ok
  | _ => false

/-- The reply of a call that has only the collector left to update. -/
@[simp] def replying : Pc → Option ChunkReply
  | .update _ (.reply r) | .evict _ (.reply r) _ => some r
  | _ => none

variable {c c' : ReadCall} {e e' : Nat} {err : ErrorCode} {rest : Rest}
  {gone : UInt32}

theorem loaded_ne_reload : loaded c e err ≠ .reload c' e' := by
  unfold loaded
  split_ifs <;> exact Pc.noConfusion

theorem replying_loaded : (loaded c e err).replying = none := by
  unfold loaded
  split_ifs <;> rfl

theorem reloaded_ne_reload : reloaded c e err ≠ .reload c' e' := by
  unfold reloaded
  split_ifs <;> exact Pc.noConfusion

theorem replying_reloaded : (reloaded c e err).replying = none := by
  unfold reloaded
  split_ifs <;> rfl

theorem replying_evict :
    (evict c rest gone).replying = (update c rest).replying := by
  cases rest <;> rfl

theorem resume_ne_reload : rest.resume c ≠ .reload c' e' := by
  cases rest <;> exact Pc.noConfusion

theorem replying_resume : (rest.resume c).replying = none := by
  cases rest <;> rfl

/-- A call does not fail with a reply that is OK. -/
theorem failing_resume
    (h : ∀ r, (update c rest).replying = some r → r.err = .ok) :
    (rest.resume c).failing = false := by
  cases rest with
  | copy e => rfl
  | reply r => simp [Rest.resume, h r rfl]

end Pc

-- ================================================ the provider over it

namespace SharedProvider

/-- A provider's store, and a network that always has the chunk:
`client.fetch_chunk` writes it to the store and returns OK. With room for
a chunk the store is never undefined. -/
def storeBacking (z : Lz4) (stored : UInt32 → Bytes) :
    Backing ChunkStore Io :=
  { readChunk := fun s io id entry =>
      match CompressedStore.readChunk z s io id with
      | none => (.internalError, entry, s)
      | some (.error err, s) => (err, entry, s)
      | some (.ok bytes, s) =>
          (.ok, { data := entry.data.write 0 bytes, len := bytes.length }, s)
    fetchChunk := fun s io id =>
      match s.writeChunk io id (stored id) with
      | none => (.internalError, s)
      | some (_, s) => (.ok, s) }

/-- The chunks used in the store so far, newest first: read with success,
or written. -/
def uses (z : Lz4) (stored : UInt32 → Bytes) (s : SharedProvider ChunkStore)
    (used : List UInt32) : Action Io → List UInt32
  | .call _ _ => used
  | .step t io =>
      match s.threads t with
      | .load c e | .reload c e =>
          if ((storeBacking z stored).readChunk s.store io c.id
            (s.slot e).entry).1 = .ok then c.id :: used else used
      | .fetch c _ => c.id :: used
      | _ => used

/-- Calls are for ranges inside of the chunk, and system calls succeed. -/
def Action.Fine : Action Io → Prop
  | .call _ c => InChunk c
  | .step _ io => io.AllOk

/-- The store holds the chunks used last, and a thread that is about to
read a chunk again has had it fetched. -/
structure Served (stored : UInt32 → Bytes) (size : Nat)
    (s : SharedProvider ChunkStore) (used : List UInt32) : Prop where
  stocked : s.store.Stocked stored used
  size : s.store.collector.size = size
  fetched : ∀ u c e, s.threads u = .reload c e → c.id ∈ used
  replying : ∀ u r, (s.threads u).replying = some r → r.err = .ok

variable {z : Lz4} {stored : UInt32 → Bytes} {fresh : Nat → Mem}
  {s s' : SharedProvider ChunkStore} {used : List UInt32} {size : Nat}
  {t : Nat} {q : Pc} {io : Io} {a : Action Io}

/-- A step of thread `t` to `q`. -/
theorem Served.move (h : Served stored size s used) {used' : List UInt32}
    (hthreads : s'.threads = Function.update s.threads t q)
    (hstocked : s'.store.Stocked stored used')
    (hsize : s'.store.collector.size = s.store.collector.size)
    (hused : ∀ id ∈ used, id ∈ used')
    (hfetched : ∀ c e, q = .reload c e → c.id ∈ used')
    (hreplying : ∀ r, q.replying = some r → r.err = .ok) :
    Served stored size s' used' := by
  refine ⟨hstocked, hsize.trans h.size, ?_, ?_⟩
  · rw [hthreads]
    refine (Function.forall_update_iff s.threads fun _ pc =>
      ∀ c e, pc = .reload c e → c.id ∈ used').2
      ⟨hfetched, fun u _ c e hu => ?_⟩
    exact hused _ (h.fetched u c e hu)
  · rw [hthreads]
    exact (Function.forall_update_iff s.threads fun _ pc =>
      ∀ r, pc.replying = some r → r.err = .ok).2
      ⟨hreplying, fun u _ => h.replying u⟩

/-- No thread's call has failed. -/
def Calm (s : SharedProvider ChunkStore) : Prop :=
  ∀ u, (s.threads u).failing = false

/-- One thread moves: all is calm if it does not fail. -/
theorem calm_move (h : Calm s)
    (hthreads : s'.threads = Function.update s.threads t q) :
    Calm s' ↔ q.failing = false := by
  unfold Calm
  rw [hthreads]
  refine (Function.forall_update_iff s.threads fun _ pc =>
    pc.failing = false).trans ?_
  exact and_iff_left fun u _ => h u

/-- The thread's second read, if that is its step, comes in time. -/
def InTime (size : Nat) (s : SharedProvider ChunkStore × List UInt32)
    (a : Action Io) : Prop :=
  ∀ t io c e, a = .step t io → s.1.threads t = .reload c e →
    Recency.since s.2 c.id < size

/-- A read of the store finds what is tracked, and nothing else. -/
theorem storeBacking_read (hz : z.Stores stored) {st : ChunkStore}
    (h : st.Stocked stored used) (hio : io.AllOk) (id : UInt32)
    (entry : CacheEntry) :
    (id ∈ st.collector.ids ∧ ∃ entry' st',
        (storeBacking z stored).readChunk st io id entry = (.ok, entry', st')
          ∧ st'.Stocked stored (id :: used)
          ∧ st'.collector.size = st.collector.size)
      ∨ (id ∉ st.collector.ids
        ∧ (storeBacking z stored).readChunk st io id entry
          = (.notFound, entry, st)) := by
  by_cases hid : id ∈ st.collector.ids
  · obtain ⟨bytes, st', hread, hstocked, hsize⟩ := h.read hz hio hid
    refine .inl ⟨hid,
      { data := entry.data.write 0 bytes, len := bytes.length }, st', ?_,
      hstocked, hsize⟩
    simp only [storeBacking, hread]
  · refine .inr ⟨hid, ?_⟩
    simp only [storeBacking, h.read_missing hio hid]

/-- A read of the store fills the entry with what the store answers. -/
theorem readInto_eq {c : ReadCall} {e : Nat} {err : ErrorCode}
    {entry : CacheEntry} {st : ChunkStore} {after : ErrorCode → Pc}
    (h : (storeBacking z stored).readChunk s.store io c.id (s.slot e).entry
      = (err, entry, st)) :
    s.readInto (storeBacking z stored) t io c e after
      = ({ s with store := st }.setSlot e
        { s.slot e with entry := entry }).goto t (after err) := by
  rw [readInto, h]

/-- A read of the store, whatever the thread does behind it. -/
theorem served_read (hz : z.Stores stored) (hio : io.AllOk)
    (h : Served stored size s used) {c : ReadCall} {e : Nat}
    (hpc : s.threads t = .load c e ∨ s.threads t = .reload c e)
    (after : ErrorCode → Pc)
    (hreload : ∀ err c' e', after err ≠ .reload c' e')
    (hreplying : ∀ err, (after err).replying = none) :
    Served stored size (s.readInto (storeBacking z stored) t io c e after)
        (uses z stored s used (.step t io))
      ∧ (Calm s →
        (Calm (s.readInto (storeBacking z stored) t io c e after)
          ↔ (after (if c.id ∈ s.store.collector.ids then .ok
            else .notFound)).failing = false)) := by
  have huses : uses z stored s used (.step t io)
      = if ((storeBacking z stored).readChunk s.store io c.id
          (s.slot e).entry).1 = .ok then c.id :: used else used := by
    rcases hpc with hpc | hpc
    · simp only [uses, hpc]
    · simp only [uses, hpc]
  have hreply : ∀ err r, (after err).replying = some r → r.err = .ok := by
    intro err r hr
    rw [hreplying] at hr
    cases hr
  rw [huses]
  rcases storeBacking_read hz h.stocked hio c.id (s.slot e).entry
    with ⟨hid, entry, st, hread, hstocked, hsize⟩ | ⟨hid, hread⟩
  · rw [hread, if_pos rfl, readInto_eq hread, if_pos hid]
    refine ⟨h.move rfl hstocked hsize ?_ ?_ (hreply _),
      fun hcalm => calm_move hcalm rfl⟩
    · exact fun _ hi => List.mem_cons_of_mem _ hi
    · exact fun c' e' he => absurd he (hreload _ c' e')
  · rw [hread, if_neg (by simp), readInto_eq hread, if_neg hid]
    refine ⟨h.move rfl h.stocked rfl (fun _ hi => hi) ?_ (hreply _),
      fun hcalm => calm_move hcalm rfl⟩
    exact fun c' e' he => absurd he (hreload _ c' e')

/-- A step that is no second read is in time. -/
theorem inTime_of_ne (hpc : ∀ c e, s.threads t ≠ .reload c e) :
    InTime size (s, used) (.step t io) := by
  intro u y c e hstep hreload
  cases hstep
  exact absurd hreload (hpc c e)

/-- The second read is in time if the chunk is among the last ones used. -/
theorem inTime_reload {c : ReadCall} {e : Nat}
    (hpc : s.threads t = .reload c e) :
    InTime size (s, used) (.step t io) ↔ Recency.since used c.id < size := by
  constructor
  · exact fun hin => hin t io c e rfl hpc
  · intro hlt u y c' e' hstep hreload
    cases hstep
    rw [hpc] at hreload
    cases hreload
    exact hlt

/-- What a step does to the store and its uses; and it fails a call
exactly if it is a second read that comes too late. -/
theorem served_step (hz : z.Stores stored) (ha : a.Fine)
    (h : Served stored size s used)
    (hs : Moves (storeBacking z stored) fresh s a s') :
    Served stored size s' (uses z stored s used a)
      ∧ (Calm s → (Calm s' ↔ InTime size (s, used) a)) := by
  -- a step that does not use the store
  have hquiet : ∀ {a : Action Io} {t q} {s' : SharedProvider ChunkStore},
      s'.threads = Function.update s.threads t q → s'.store = s.store →
      uses z stored s used a = used → (∀ c e, q ≠ .reload c e) →
      q.failing = false → (∀ r, q.replying = some r → r.err = .ok) →
      InTime size (s, used) a →
      Served stored size s' (uses z stored s used a)
        ∧ (Calm s → (Calm s' ↔ InTime size (s, used) a)) := by
    intro a t q s' hthreads hstore huses hq hfailing hreplying hin
    rw [huses]
    refine ⟨h.move hthreads ?_ ?_ (fun _ hid => hid)
      (fun c e he => absurd he (hq c e)) hreplying, fun hcalm => ?_⟩
    · rw [hstore]
      exact h.stocked
    · rw [hstore]
    · exact iff_of_true ((calm_move hcalm hthreads).2 hfailing) hin
  cases hs with
  | @refuse t c hpc hrange =>
      have hchunk := chunkSizeBytes_eq
      have hc : c.offset + c.len ≤ chunkSizeBytes := ha
      rw [uint32_of_lt (by omega)] at hrange
      omega
  | @start t c hpc =>
      refine hquiet rfl rfl rfl (by simp) rfl (by simp) ?_
      intro u io c' e hstep
      cases hstep
  | @found t x c e hpc hentry =>
      exact hquiet rfl rfl (by simp [uses, hpc]) (by simp) rfl (by simp)
        (inTime_of_ne (by simp [hpc]))
  | @missed t x c hpc hentry =>
      exact hquiet rfl rfl (by simp [uses, hpc]) (by simp) rfl (by simp)
        (inTime_of_ne (by simp [hpc]))
  | @acquire t x c e hpc hfree =>
      exact hquiet rfl rfl (by simp [uses, hpc]) (by simp) rfl (by simp)
        (inTime_of_ne (by simp [hpc]))
  | @hit t x c e hpc hlen =>
      exact hquiet rfl rfl (by simp [uses, hpc]) (by simp) rfl (by simp)
        (inTime_of_ne (by simp [hpc]))
  | @empty t x c e hpc hlen =>
      exact hquiet rfl rfl (by simp [uses, hpc]) (by simp) rfl (by simp)
        (inTime_of_ne (by simp [hpc]))
  | @replace t x c e hpc =>
      exact hquiet rfl rfl (by simp [uses, hpc]) (by simp) rfl (by simp)
        (inTime_of_ne (by simp [hpc]))
  | @load t io c e hpc =>
      obtain ⟨hserved, hcalm⟩ := served_read hz ha h (.inl hpc)
        (Pc.loaded c e)
        (fun _ _ _ => Pc.loaded_ne_reload) fun _ => Pc.replying_loaded
      refine ⟨hserved, fun hbefore => iff_of_true ?_ ?_⟩
      · rw [hcalm hbefore]
        split_ifs <;> rfl
      · exact inTime_of_ne (by simp [hpc])
  | @fetch t io c e r hpc hr =>
      obtain ⟨st, hwrite, hstocked, hsize⟩ := h.stocked.write ha c.id
      have hr' : r = (.ok, st) := by
        rw [← hr]
        simp only [storeBacking, hwrite]
      have huses : uses z stored s used (.step t io) = c.id :: used := by
        simp only [uses, hpc]
      have hq : Pc.fetched c e .ok = .reload c e := rfl
      rw [huses, hr', hq]
      refine ⟨h.move rfl hstocked hsize
        (fun _ hi => List.mem_cons_of_mem _ hi) (fun c' e' hreload => ?_)
        (by simp), fun hcalm => ?_⟩
      · cases hreload
        exact List.mem_cons_self
      · exact iff_of_true ((calm_move hcalm rfl).2 rfl)
          (inTime_of_ne (by simp [hpc]))
  | @reload t io c e hpc =>
      have hmem : c.id ∈ s.store.collector.ids ↔ c.id ∈ used
          ∧ Recency.since used c.id < s.store.collector.size :=
        h.stocked.tracks.mem_ids
      rw [h.size, and_iff_right (h.fetched t c e hpc)] at hmem
      obtain ⟨hserved, hcalm⟩ := served_read hz ha h (.inr hpc)
        (Pc.reloaded c e)
        (fun _ _ _ => Pc.reloaded_ne_reload) fun _ => Pc.replying_reloaded
      refine ⟨hserved, fun hbefore => ?_⟩
      rw [hcalm hbefore, inTime_reload hpc, ← hmem]
      by_cases hid : c.id ∈ s.store.collector.ids
      · rw [if_pos hid]
        exact iff_of_true rfl hid
      · rw [if_neg hid]
        exact iff_of_false (by simp [Pc.reloaded]) hid
  | @release t x c e hpc =>
      exact hquiet rfl rfl (by simp [uses, hpc]) (by simp) rfl (by simp)
        (inTime_of_ne (by simp [hpc]))
  | @copy t x c e hit hpc =>
      refine hquiet rfl rfl (by simp [uses, hpc]) ?_ ?_ ?_
        (inTime_of_ne (by simp [hpc]))
      · intro c' e'
        split_ifs <;> simp
      · split_ifs <;> rfl
      · intro r hr
        cases hit with
        | true => cases hr
        | false =>
            cases hr
            rfl
  | @update t x c rest collector hpc hupdate =>
      have hreply := h.replying t
      rw [hpc] at hreply
      refine hquiet rfl rfl (by simp [uses, hpc])
        (fun _ _ => Pc.resume_ne_reload) (Pc.failing_resume hreply)
        (fun r hr => ?_) (inTime_of_ne (by simp [hpc]))
      rw [Pc.replying_resume] at hr
      cases hr
  | @pushOut t x c rest collector gone hpc hupdate =>
      have hreply := h.replying t
      rw [hpc] at hreply
      exact hquiet rfl rfl (by simp [uses, hpc]) (by simp) rfl
        (fun r hr => hreply r (Pc.replying_evict.symm.trans hr))
        (inTime_of_ne (by simp [hpc]))
  | @evict t x c rest gone hpc =>
      have hreply := h.replying t
      rw [hpc, Pc.replying_evict] at hreply
      refine hquiet rfl rfl (by simp [uses, hpc])
        (fun _ _ => Pc.resume_ne_reload) (Pc.failing_resume hreply)
        (fun r hr => ?_) (inTime_of_ne (by simp [hpc]))
      rw [Pc.replying_resume] at hr
      cases hr
  | @fail t io c e err hpc =>
      have huses : uses z stored s used (.step t io) = used := by
        simp only [uses, hpc]
      rw [huses]
      refine ⟨h.move rfl h.stocked rfl (fun _ hi => hi) (by simp) (by simp),
        fun hcalm => ?_⟩
      have ht := hcalm t
      rw [hpc] at ht
      cases ht

/-- Calm is that no call fails or has failed. -/
theorem calm_iff : Calm s ↔ ∀ u, (∀ c e err, s.threads u ≠ .fail c e err)
    ∧ ∀ c r, s.threads u = .done c r → r.err = .ok := by
  refine forall_congr' fun u => ?_
  cases hpc : s.threads u <;> simp

/-- A run over the store `store`, whose uses were `used`, with the uses
as a history variable. -/
def runUses (z : Lz4) (stored : UInt32 → Bytes) (fresh : Nat → Mem)
    (store : ChunkStore) (used : List UInt32) (cacheSize : Nat)
    (as : List (Action Io)) :
    Option (SharedProvider ChunkStore × List UInt32) :=
  Machine.run (Machine.noted (step (storeBacking z stored) fresh)
    (uses z stored)) (new fresh store cacheSize, used) as

/-- In no state of the run has a `read_chunk` returned an error, or is
bound to. -/
def NoFailure (z : Lz4) (stored : UInt32 → Bytes) (fresh : Nat → Mem)
    (store : ChunkStore) (used : List UInt32) (cacheSize : Nat)
    (as : List (Action Io)) : Prop :=
  ∀ pre post s used', as = pre ++ post →
    runUses z stored fresh store used cacheSize pre = some (s, used') →
    ∀ u, (∀ c e err, s.threads u ≠ .fail c e err)
      ∧ ∀ c r, s.threads u = .done c r → r.err = .ok

/-- Every chunk is read again after its fetch before as many others as
the store has room for were used. -/
def RefetchesInTime (z : Lz4) (stored : UInt32 → Bytes) (fresh : Nat → Mem)
    (store : ChunkStore) (used : List UInt32) (cacheSize : Nat)
    (as : List (Action Io)) : Prop :=
  ∀ pre t io post s used' s', as = pre ++ .step t io :: post →
    runUses z stored fresh store used cacheSize pre = some (s, used') →
    step (storeBacking z stored) fresh s (.step t io) = some s' →
    ∀ c e, s.threads t = .reload c e →
      Recency.since used' c.id < store.collector.size

/-- In a run with valid ranges, system calls that succeed and a network
that always has the chunk, no `read_chunk` fails exactly if every chunk is
read again in time. -/
theorem refetch_iff (hz : z.Stores stored) {store : ChunkStore}
    (hstore : store.Stocked stored used) (cacheSize : Nat)
    (as : List (Action Io)) (hfine : ∀ a ∈ as, a.Fine) :
    NoFailure z stored fresh store used cacheSize as
      ↔ RefetchesInTime z stored fresh store used cacheSize as := by
  have hstart : Served stored store.collector.size
      (new fresh store cacheSize) used :=
    ⟨hstore, rfl, fun u c e hu => (by cases hu), fun u r hr => (by cases hr)⟩
  have hserved : ∀ a ∈ as, ∀ s s', Served stored store.collector.size
      s.1 s.2 → Machine.noted (step (storeBacking z stored) fresh)
        (uses z stored) s a = some s' →
      Served stored store.collector.size s'.1 s'.2
        ∧ (Calm s.1 → (Calm s'.1 ↔ InTime store.collector.size s a)) := by
    intro a ha s s' h hs
    obtain ⟨hstep, hnote⟩ := Machine.noted_eq_some.1 hs
    rw [← hnote]
    exact served_step hz (hfine a ha) h (moves_of_step hstep)
  have hreached := Machine.forall_reached_iff_of_mem as
    (P := fun s => Served stored store.collector.size s.1 s.2 ∧ Calm s.1)
    (fun a ha s s' h hs => by
      obtain ⟨hs', hcalm⟩ := hserved a ha s s' h.1 hs
      rw [and_iff_right hs', hcalm h.2])
    (new fresh store cacheSize, used)
  constructor
  · intro hall pre t io post s used' s' has hrun hstep c e hpc
    refine (hreached.1 fun pre post s has hrun => ⟨?_, ?_⟩).2 pre _ post
      (s, used') (s', uses z stored s used' (.step t io)) has hrun
      (Machine.noted_eq_some.2 ⟨hstep, rfl⟩) t io c e rfl hpc
    · exact Machine.run_invariant_of_mem pre (fun a ha s s' h hs =>
        (hserved a (by rw [has]; exact List.mem_append_left _ ha) s s' h
          hs).1) _ s hstart hrun
    · exact calm_iff.2 (hall pre post s.1 s.2 has hrun)
  · intro hcond pre post s used' has hrun
    have hcalm := ((hreached.2 ⟨⟨hstart, fun u => rfl⟩,
      fun pre a post s s' has hrun hs t io c e ha hpc => ?_⟩) pre post
        (s, used') has hrun).2
    · exact calm_iff.1 hcalm
    · subst ha
      exact hcond pre t io post s.1 s.2 s'.1 has hrun
        (Machine.noted_eq_some.1 hs).1 c e hpc

-- ========================================== two threads, room for one

/-- The block LZ4 makes of a chunk of zeros: a literal, a match of all but
the last five bytes, and these. -/
def zeroBlock : Bytes :=
  [0x1F, 0, 1, 0] ++ List.replicate 16448 255 ++ [39, 0x50, 0, 0, 0, 0, 0]

/-- The codec of literals, and of this block. -/
def zeroCodec : Lz4 :=
  { Lz4.literal with
    decompressSafe := fun block cap =>
      if block = zeroBlock ∧ chunkSizeBytes ≤ cap then
        ((chunkSizeBytes : Int), List.replicate chunkSizeBytes 0)
      else Lz4.literal.decompressSafe block cap }

/-- The codec of zeros stores every chunk as one block. -/
theorem zeroCodec_stores : zeroCodec.Stores fun _ => zeroBlock := by
  constructor
  · intro id
    have hlen : zeroBlock.length = 4 + 16448 + 7 := by
      rw [zeroBlock, List.length_append, List.length_append,
        List.length_replicate]
      rfl
    rw [hlen, chunkSizeBytes_eq]
    omega
  · intro id
    simp only [zeroCodec, Nat.le_refl, and_self, if_true]

/-- Thread 1 has its chunk fetched between the fetch of thread 0 and its
second read. -/
def pushedOut : List (Action Io) :=
  [.call 0 ⟨3, 0, 1⟩, .step 0 {}, .step 0 {}, .step 0 {},
    .call 1 ⟨4, 0, 1⟩, .step 1 {}, .step 1 {}, .step 1 {},
    .step 0 {}, .step 0 {}]

/-- A chunk that is pushed out before it is read again. -/
theorem refetch_pushed_out (hz : z.Stores stored) :
    (run (storeBacking z stored) fresh (.new 1) 1 pushedOut).map
        (fun s => s.threads 0)
      = some (.done ⟨3, 0, 1⟩
        { err := .notFound, readSize := none, bytes := [] }) := by
  have hio : Io.AllOk {} := ⟨rfl, rfl, rfl, by simp⟩
  have hempty : (ChunkStore.new 1).Stocked stored [] :=
    ChunkStore.stocked_new Nat.one_pos
  obtain ⟨st₁, hwrite₁, hstocked₁, hsize₁⟩ := hempty.write hio 3
  obtain ⟨st₂, hwrite₂, hstocked₂, hsize₂⟩ := hstocked₁.write hio 4
  have hmiss₀ : ∀ entry, (storeBacking z stored).readChunk (.new 1) {} 3
      entry = (.notFound, entry, .new 1) := fun _ => rfl
  have hmiss₁ : ∀ entry, (storeBacking z stored).readChunk st₁ {} 4
      entry = (.notFound, entry, st₁) := by
    intro entry
    rcases storeBacking_read hz hstocked₁ hio 4 entry with ⟨hid, -⟩ | ⟨-, h⟩
    · have hmem := (hstocked₁.tracks.mem_ids.1 hid).1
      simp at hmem
    · exact h
  have hmiss₂ : ∀ entry, (storeBacking z stored).readChunk st₂ {} 3
      entry = (.notFound, entry, st₂) := by
    intro entry
    rcases storeBacking_read hz hstocked₂ hio 3 entry with ⟨hid, -⟩ | ⟨-, h⟩
    · have hlt := (hstocked₂.tracks.mem_ids.1 hid).2
      rw [hsize₂, hsize₁] at hlt
      exact absurd hlt (by decide)
    · exact h
  have hfetch₁ : (storeBacking z stored).fetchChunk (.new 1) {} 3
      = (.ok, st₁) := by
    simp only [storeBacking, hwrite₁]
  have hfetch₂ : (storeBacking z stored).fetchChunk st₁ {} 4
      = (.ok, st₂) := by
    simp only [storeBacking, hwrite₂]
  have hrange : ¬ chunkSizeBytes < uint32 (0 + 1) := by decide
  simp [run, pushedOut, Machine.run, step, stepThread, new, goto, Pc.resting,
    readInto, setSlot, setEntry, insertEntry, hmiss₀, hmiss₁, hmiss₂,
    hfetch₁, hfetch₂, Pc.loaded, Pc.fetched, Pc.reloaded, hrange]

/-- No system call of the run fails. -/
theorem pushedOut_fine : ∀ a ∈ pushedOut, a.Fine := by
  have hio : Io.AllOk {} := ⟨rfl, rfl, rfl, by simp⟩
  have hrange : (0 : Nat) + 1 ≤ chunkSizeBytes := by decide
  intro a ha
  simp only [pushedOut, List.mem_cons, List.not_mem_nil, or_false] at ha
  rcases ha with rfl | rfl | rfl | rfl | rfl | rfl | rfl | rfl | rfl | rfl
  · exact hrange
  · exact hio
  · exact hio
  · exact hio
  · exact hrange
  · exact hio
  · exact hio
  · exact hio
  · exact hio
  · exact hio

/-- Where the store has room for one chunk, a call fails in this run, and
it has not read its chunk in time. -/
theorem refetch_iff_two_threads :
    ¬ RefetchesInTime zeroCodec (fun _ => zeroBlock) (fun _ _ => 0)
      (.new 1) [] 1 pushedOut := by
  intro hintime
  have hnone : NoFailure zeroCodec (fun _ => zeroBlock) (fun _ _ => 0)
      (.new 1) [] 1 pushedOut :=
    (refetch_iff zeroCodec_stores (ChunkStore.stocked_new Nat.one_pos) 1
      pushedOut pushedOut_fine).2 hintime
  obtain ⟨s, hrun, hpc⟩ := Option.map_eq_some_iff.1
    (@refetch_pushed_out _ _ (fun _ _ => 0) zeroCodec_stores)
  obtain ⟨used, huses⟩ := (Machine.run_noted _ _ [] s).1 hrun
  obtain ⟨-, hok⟩ := hnone pushedOut [] s used (List.append_nil _).symm huses 0
  cases hok _ _ hpc

/-- The chunk of thread 0 was fetched, and its `read_chunk` returns
NOT_FOUND. -/
theorem read_chunk_fails :
    zeroCodec.Stores (fun _ => zeroBlock)
      ∧ (∀ a ∈ pushedOut, a.Fine)
      ∧ (run (storeBacking zeroCodec fun _ => zeroBlock) (fun _ _ => 0)
          (.new 1) 1 pushedOut).map (fun s => s.threads 0)
        = some (.done ⟨3, 0, 1⟩
          { err := .notFound, readSize := none, bytes := [] }) := by
  exact ⟨zeroCodec_stores, pushedOut_fine,
    refetch_pushed_out zeroCodec_stores⟩

end SharedProvider

end Distfs

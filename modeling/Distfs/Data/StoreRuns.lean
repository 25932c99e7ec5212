/-
`ChunkStore` as a bounded least-recently-used map, over any sequence of
calls that do not overlap and whose system calls succeed.

The state is in three places: the files, `in_store`, and the collector,
which calls back into `remove_chunk` from inside of a write or a read. A
removal leaves the collector alone, so it may track ids that have no
file; what holds is one inclusion, `Sound.held`. The collector itself is
told by the uses alone (`LruCollector.Tracks`).

`History` remembers what the calls did: the ids that were used, and what
was last written under each.
-/
import Distfs.Data.ChunkStore
import Distfs.Lib.Machine

namespace Distfs

open Transfer

/-- A call of the store, and how its system calls end. -/
inductive StoreCall where
  | write (io : Io) (id : UInt32) (buffer : Bytes)
  | read (io : Io) (id : UInt32)
  | remove (io : Io) (id : UInt32)

namespace StoreCall

/-- The chunk the call is for. -/
def id : StoreCall → UInt32
  | .write _ id _ | .read _ id | .remove _ id => id

/-- All system calls succeed, and what is written is at most a chunk. -/
def Fine : StoreCall → Prop
  | .write io _ buffer => io.AllOk ∧ buffer.length ≤ chunkSizeBytes
  | .read io _ | .remove io _ => io.AllOk

end StoreCall

/-- What the calls of the store did so far: the ids of the writes and the
successful reads, newest first, and what was last written. -/
structure History where
  used : List UInt32
  written : UInt32 → Option Bytes

namespace ChunkStore

/-- A call: its error code and the store after it. -/
def perform (s : ChunkStore) : StoreCall → Option (ErrorCode × ChunkStore)
  | .write io id buffer => s.writeChunk io id buffer
  | .read io id =>
      match s.readChunk io id with
      | none => none
      | some (.error err, s) => some (err, s)
      | some (.ok _, s) => some (.ok, s)
  | .remove io id => some (s.removeChunk io id)

/-- The store after a call. -/
def step (s : ChunkStore) (c : StoreCall) : Option ChunkStore :=
  match s.perform c with
  | none => none
  | some (_, t) => some t

/-- What a call adds to the history. -/
def remember (s : ChunkStore) (h : History) (c : StoreCall) : History :=
  match c, s.perform c with
  | .write _ id buffer, some (.ok, _) =>
      { used := id :: h.used
        written := fun i => if i = id then some buffer else h.written i }
  | .read _ id, some (.ok, _) => { h with used := id :: h.used }
  | _, _ => h

/-- A sequence of calls on a new store with room for `size` chunks. -/
def run (size : Nat) (calls : List StoreCall) :
    Option (ChunkStore × History) :=
  Machine.run (Machine.noted step remember)
    (new size, { used := [], written := fun _ => none }) calls

variable {s t : ChunkStore} {h : History} {io : Io} {id : UInt32}
  {used : List UInt32}

-- ============================================ what the parts of a call do

theorem fileOf_removeChunk (hio : io.unlinkFails = false) (i : UInt32) :
    (s.removeChunk io id).2.fileOf i
      = if i = id then none else s.fileOf i := by
  unfold removeChunk
  cases hfile : s.fileOf id with
  | none =>
      by_cases hi : i = id
      · rw [if_pos hi, hi, hfile]
      · rw [if_neg hi]
  | some content =>
      simp only [hio, Bool.false_eq_true, if_false]
      exact fileOf_setFile s id none i

theorem mem_inStore_removeChunk (hio : io.unlinkFails = false) (i : UInt32) :
    i ∈ (s.removeChunk io id).2.inStore
      ↔ i ∈ s.inStore ∧ (i = id → s.fileOf id = none) := by
  unfold removeChunk
  cases hfile : s.fileOf id with
  | none => simp
  | some content =>
      simp only [hio, Bool.false_eq_true, if_false, reduceCtorEq, imp_false]
      show i ∈ s.inStore.erase id ↔ _
      rw [Finset.mem_erase, and_comm]

theorem files_removeChunk {p : ChunkPath} {content : Bytes}
    (hp : (s.removeChunk io id).2.files p = some content) :
    s.files p = some content := by
  unfold removeChunk at hp
  split at hp
  · exact hp
  · split at hp
    · exact hp
    · have hp' : (if p = idToPath id then none else s.files p)
          = some content := hp
      split at hp'
      · cases hp'
      · exact hp'

/-- What is left of the store when the collector hands on an id, if it
does. -/
structure Evicts (s t : ChunkStore) (gone : Option UInt32) : Prop where
  fileOf : ∀ i, t.fileOf i = if gone = some i then none else s.fileOf i
  inStore : ∀ i, i ∈ t.inStore
    ↔ i ∈ s.inStore ∧ (gone = some i → s.fileOf i = none)
  files : ∀ p content, t.files p = some content → s.files p = some content

/-- A use of a chunk evicts what the collector hands on. -/
theorem touch_evicts (hio : io.unlinkFails = false)
    {collector : LruCollector} {gone : Option UInt32}
    (hupdate : s.collector.update id = some (collector, gone)) :
    ∃ t, s.touch io id = some t ∧ t.collector = collector
      ∧ s.Evicts t gone := by
  unfold touch
  rw [hupdate]
  cases gone with
  | none =>
      refine ⟨_, rfl, rfl, fun i => ?_, fun i => ?_, ?_⟩
      · rw [if_neg (Option.some_ne_none i).symm]
        rfl
      · exact (and_iff_left fun hi => absurd hi.symm
          (Option.some_ne_none i)).symm
      · exact fun p content hp => hp
  | some last =>
      refine ⟨_, rfl, collector_removeChunk, fun i => ?_, fun i => ?_, ?_⟩
      · rw [fileOf_removeChunk hio]
        by_cases hi : i = last
        · rw [if_pos hi, if_pos (congrArg some hi.symm)]
        · rw [if_neg hi, if_neg fun hlast => hi (Option.some.inj hlast).symm]
          rfl
      · rw [mem_inStore_removeChunk hio, Option.some.injEq]
        refine and_congr_right' ⟨fun hlast hi => ?_, fun hlast hi => ?_⟩
        · rw [← hi]
          exact hlast hi.symm
        · rw [← hi]
          exact hlast hi.symm
      · intro p content hp
        exact files_removeChunk (s := { s with collector := collector }) hp

/-- A use of a chunk is one more use for the collector, and evicts what
it pushes out. -/
theorem touch_tracks (htracks : s.collector.Tracks used)
    (hio : io.unlinkFails = false) (id : UInt32) :
    ∃ t, s.touch io id = some t ∧ t.collector.Tracks (id :: used)
      ∧ t.collector.size = s.collector.size
      ∧ s.Evicts t
        (Recency.evicted s.collector.size s.collector.ids id) := by
  obtain ⟨c', hupdate, htracks', hsize⟩ := htracks.update id
  obtain ⟨t, htouch, hcollector, hevicts⟩ := touch_evicts hio hupdate
  refine ⟨t, htouch, ?_, ?_, hevicts⟩
  · rw [hcollector]
    exact htracks'
  · rw [hcollector]
    exact hsize

-- ======================================================== the invariant

/-- Files, `in_store` and collector of a store that did what `h` says. -/
structure Sound (s : ChunkStore) (h : History) : Prop where
  tracks : s.collector.Tracks h.used
  listed : ∀ i, i ∈ s.inStore ↔ (s.fileOf i).isSome
  held : ∀ i content, s.fileOf i = some content →
    i ∈ s.collector.ids ∧ h.written i = some content
      ∧ content.length ≤ chunkSizeBytes
  files : ∀ p content, s.files p = some content → ∃ i, p = idToPath i

theorem sound_new {size : Nat} (hsize : 0 < size) :
    Sound (new size) { used := [], written := fun _ => none } :=
  ⟨LruCollector.tracks_new hsize, fun i => by simp [new, fileOf],
    fun i content hi => (by cases hi), fun p content hp => (by cases hp)⟩

/-- A use of a chunk that has a file, and has just got it or is listed:
the others are as before, but for the one that is evicted. -/
theorem sound_touch (htracks : s.collector.Tracks h.used)
    (hlisted : ∀ i, i ≠ id → (i ∈ s.inStore ↔ (s.fileOf i).isSome))
    (hheld : ∀ i content, s.fileOf i = some content →
      (i ≠ id → i ∈ s.collector.ids) ∧ h.written i = some content
        ∧ content.length ≤ chunkSizeBytes)
    (hfiles : ∀ p content, s.files p = some content → ∃ i, p = idToPath i)
    (hid : (s.fileOf id).isSome) (hio : io.unlinkFails = false)
    (htouch : s.touch io id = some t) :
    Sound { t with inStore := insert id t.inStore }
      { h with used := id :: h.used } := by
  obtain ⟨t', htouch', htracks', hsize, hevicts⟩ :=
    touch_tracks htracks hio id
  rw [htouch, Option.some.injEq] at htouch'
  subst htouch'
  have hself : Recency.evicted s.collector.size s.collector.ids id
      ≠ some id := fun hgone => Recency.evicted_ne hgone rfl
  refine ⟨htracks', fun i => ?_, fun i content hi => ?_, fun p content hp =>
    hfiles p content (hevicts.files p content hp)⟩
  · show i ∈ insert id t.inStore ↔ (t.fileOf i).isSome
    rw [Finset.mem_insert, hevicts.fileOf, hevicts.inStore]
    by_cases hi : i = id
    · rw [hi, if_neg hself]
      simp [hid]
    · rw [hlisted i hi]
      by_cases hgone : Recency.evicted s.collector.size s.collector.ids id
          = some i
      · simp only [hi, hgone, if_true, forall_const, false_or]
        cases s.fileOf i <;> simp
      · simp [hi, hgone]
  · have hi' : t.fileOf i = some content := hi
    rw [hevicts.fileOf] at hi'
    split at hi'
    · cases hi'
    · next hgone =>
      obtain ⟨hmem, hrest⟩ := hheld i content hi'
      refine ⟨?_, hrest⟩
      show i ∈ t.collector.ids
      rw [htracks.mem_ids_update htracks' hsize]
      by_cases hi : i = id
      · exact .inl hi
      · exact .inr ⟨hmem hi, hgone⟩

-- ============================================================ the calls

/-- With its system calls succeeding, `write_chunk` is the file, the use
of the chunk, and the entry in `in_store`. -/
theorem writeChunk_touch (hio : io.AllOk) {buffer : Bytes}
    (htouch : (s.setFile id (some buffer)).touch io id = some t) :
    s.writeChunk io id buffer
      = some (.ok, { t with inStore := insert id t.inStore }) := by
  have hdir : createBaseDir io = .ok := by
    rw [createBaseDir, hio.mkdir]
    rfl
  have hloop := writeLoop_of_progress buffer io.script hio.progress
  simp only [writeChunk, hdir, hio.openOk, hloop, ne_eq, not_true_eq_false,
    if_false, Bool.false_eq_true, htouch]

/-- With its system calls succeeding, `read_chunk` of a chunk that has a
file is the use of the chunk. -/
theorem readChunk_touch (hio : io.AllOk) {content : Bytes}
    (hfile : s.fileOf id = some content)
    (hlen : content.length ≤ chunkSizeBytes)
    (htouch : s.touch io id = some t) :
    s.readChunk io id = some (.ok content, t) := by
  obtain ⟨hf, hgot, -⟩ := readLoop_of_progress chunkSizeBytes
    { rest := content, script := io.script } hio.progress chunkSizeBytes_pos
  simp only [readChunk, hio.openOk, hfile, htouch, hf, hgot,
    Bool.false_eq_true, if_false, List.take_of_length_le hlen]

/-- The use of a chunk: it is there, and of the others the one the
collector pushes out loses its file. -/
structure Uses (s t : ChunkStore) (id : UInt32) : Prop where
  present : (t.fileOf id).isSome
  size : t.collector.size = s.collector.size
  ids : ∀ i, i ∈ t.collector.ids ↔ i = id ∨ (i ∈ s.collector.ids
    ∧ Recency.evicted s.collector.size s.collector.ids id ≠ some i)
  fileOf : ∀ i, i ≠ id → t.fileOf i
    = if Recency.evicted s.collector.size s.collector.ids id = some i
      then none else s.fileOf i

/-- `write_chunk` keeps the store sound, and the chunk is there. -/
theorem writeChunk_sound (h₀ : Sound s h) (hio : io.AllOk) (id : UInt32)
    {buffer : Bytes} (hlen : buffer.length ≤ chunkSizeBytes) :
    ∃ t, s.writeChunk io id buffer = some (.ok, t)
      ∧ Sound t { used := id :: h.used
                  written := fun i =>
                    if i = id then some buffer else h.written i }
      ∧ s.Uses t id ∧ id ∈ t.inStore := by
  obtain ⟨t, htouch, htracks', hsize, hevicts⟩ :=
    touch_tracks (s := s.setFile id (some buffer)) h₀.tracks hio.unlink id
  have hself : Recency.evicted s.collector.size s.collector.ids id
      ≠ some id := fun hgone => Recency.evicted_ne hgone rfl
  refine ⟨{ t with inStore := insert id t.inStore },
    writeChunk_touch hio htouch, ?_, ?_, Finset.mem_insert_self _ _⟩
  · refine sound_touch (s := s.setFile id (some buffer))
      (h := { h with written := fun i =>
        if i = id then some buffer else h.written i })
      h₀.tracks (fun i hi => ?_) (fun i content hi => ?_)
      (fun p content hp => ?_) ?_ hio.unlink htouch
    · rw [fileOf_setFile, if_neg hi]
      exact h₀.listed i
    · rw [fileOf_setFile] at hi
      by_cases hid : i = id
      · rw [if_pos hid, Option.some.injEq] at hi
        rw [← hi]
        exact ⟨fun hne => absurd hid hne, if_pos hid, hlen⟩
      · rw [if_neg hid] at hi
        obtain ⟨hmem, hwritten, hlen'⟩ := h₀.held i content hi
        exact ⟨fun _ => hmem, (if_neg hid).trans hwritten, hlen'⟩
    · have hp' : (if p = idToPath id then some buffer else s.files p)
          = some content := hp
      split at hp'
      · next hpath => exact ⟨id, hpath⟩
      · exact h₀.files p content hp'
    · rw [fileOf_setFile, if_pos rfl]
      rfl
  · refine ⟨?_, hsize, h₀.tracks.mem_ids_update htracks' hsize,
      fun i hi => ?_⟩
    · show (t.fileOf id).isSome
      rw [hevicts.fileOf, collector_setFile, if_neg hself, fileOf_setFile,
        if_pos rfl]
      rfl
    · show t.fileOf i = _
      rw [hevicts.fileOf, fileOf_setFile, if_neg hi]
      rfl

theorem readChunk_missing (hio : io.AllOk) (hfile : s.fileOf id = none) :
    s.readChunk io id = some (.error .notFound, s) := by
  simp only [readChunk, hio.openOk, hfile, Bool.false_eq_true, if_false]

/-- `read_chunk` of a chunk that has a file keeps the store sound, and
delivers what was last written. -/
theorem readChunk_sound (h₀ : Sound s h) (hio : io.AllOk) {content : Bytes}
    (hfile : s.fileOf id = some content) :
    ∃ t, s.readChunk io id = some (.ok content, t)
      ∧ Sound t { h with used := id :: h.used } ∧ s.Uses t id := by
  obtain ⟨hmem, hwritten, hlen⟩ := h₀.held id content hfile
  obtain ⟨t, htouch, htracks', hsize, hevicts⟩ :=
    touch_tracks h₀.tracks hio.unlink id
  have hself : Recency.evicted s.collector.size s.collector.ids id
      ≠ some id := fun hgone => Recency.evicted_ne hgone rfl
  have hid : (s.fileOf id).isSome := by
    rw [hfile]
    rfl
  refine ⟨t, readChunk_touch hio hfile hlen htouch, ?_, ?_, hsize,
    h₀.tracks.mem_ids_update htracks' hsize, fun i _ => hevicts.fileOf i⟩
  · have hin : id ∈ t.inStore := (hevicts.inStore id).2
      ⟨(h₀.listed id).2 hid, fun hgone => absurd hgone hself⟩
    have hsound := sound_touch h₀.tracks (fun i _ => h₀.listed i)
      (fun i content hi => ⟨fun _ => (h₀.held i content hi).1,
        (h₀.held i content hi).2⟩) h₀.files hid hio.unlink htouch
    rw [Finset.insert_eq_of_mem hin] at hsound
    exact hsound
  · rw [hevicts.fileOf, if_neg hself]
    exact hid

/-- `remove_chunk` keeps the store sound, and touches no other chunk. -/
theorem removeChunk_sound (h₀ : Sound s h) (hio : io.AllOk)
    (id : UInt32) :
    Sound (s.removeChunk io id).2 h
      ∧ (s.removeChunk io id).2.collector = s.collector
      ∧ ∀ i, i ≠ id → (s.removeChunk io id).2.fileOf i = s.fileOf i := by
  have hfile : ∀ i, (s.removeChunk io id).2.fileOf i
      = if i = id then none else s.fileOf i := fileOf_removeChunk hio.unlink
  refine ⟨⟨?_, fun i => ?_, fun i content hi => ?_, fun p content hp =>
    h₀.files p content (files_removeChunk hp)⟩, collector_removeChunk,
    fun i hi => fileOf_removeChunk_ne hi⟩
  · rw [collector_removeChunk]
    exact h₀.tracks
  · rw [mem_inStore_removeChunk hio.unlink, hfile, h₀.listed]
    by_cases hi : i = id
    · rw [if_pos hi, ← hi]
      cases s.fileOf i <;> simp
    · rw [if_neg hi]
      exact and_iff_left fun h => absurd h hi
  · rw [hfile] at hi
    split at hi
    · cases hi
    · rw [collector_removeChunk]
      exact h₀.held i content hi

-- ============================================================ all runs

/-- What the collector dropped is what was used the longest ago, of all
that it tracked. -/
def DropsOldest (s : ChunkStore) (h : History) (t : ChunkStore) : Prop :=
  ∀ i ∈ s.collector.ids, i ∉ t.collector.ids →
    ∀ j ∈ s.collector.ids, j ≠ i → h.used.idxOf j < h.used.idxOf i

/-- A call is answered, keeps the store sound, and takes away no file
but the removed one or, in another call, the one the collector drops. -/
theorem perform_sound (h₀ : Sound s h) {c : StoreCall} (hc : c.Fine) :
    ∃ t, s.step c = some t ∧ Sound t (remember s h c)
      ∧ t.collector.size = s.collector.size
      ∧ (∀ io id buffer, c = .write io id buffer → id ∈ t.inStore)
      ∧ (∀ i, (s.fileOf i).isSome → t.fileOf i = none →
          (∃ io, c = .remove io i)
            ∨ (c.id ≠ i ∧ i ∈ s.collector.ids ∧ i ∉ t.collector.ids))
      ∧ DropsOldest s h t := by
  have huse : ∀ {t id}, s.Uses t id → DropsOldest s h t := by
    intro t id huses i hi hdropped j hj hji
    rw [huses.ids] at hdropped
    have hgone : Recency.evicted s.collector.size s.collector.ids id
        = some i := by
      by_contra hgone
      exact hdropped (.inr ⟨hi, hgone⟩)
    rw [h₀.tracks.ids] at hgone hj
    exact Recency.evicted_oldest hgone hj hji
  have hlost : ∀ {t id}, s.Uses t id → ∀ i, (s.fileOf i).isSome →
      t.fileOf i = none →
        id ≠ i ∧ i ∈ s.collector.ids ∧ i ∉ t.collector.ids := by
    intro t id huses i hs ht
    have hne : i ≠ id := by
      rintro rfl
      have hpresent := huses.present
      rw [ht] at hpresent
      cases hpresent
    rw [huses.fileOf i hne] at ht
    split at ht
    · next hgone =>
      refine ⟨hne.symm, Recency.evicted_mem hgone, ?_⟩
      rw [huses.ids]
      rintro (hi | hi)
      · exact hne hi
      · exact hi.2 hgone
    · rw [ht] at hs
      cases hs
  cases c with
  | write io id buffer =>
      obtain ⟨t, hwrite, hsound, huses, hin⟩ :=
        writeChunk_sound h₀ hc.1 id hc.2
      have hperform : s.perform (.write io id buffer) = some (.ok, t) :=
        hwrite
      refine ⟨t, ?_, ?_, huses.size, fun io' id' buffer' hc' => ?_,
        fun i hs ht => .inr (hlost huses i hs ht), huse huses⟩
      · rw [step, hperform]
      · simp only [remember, hperform]
        exact hsound
      · cases hc'
        exact hin
  | read io id =>
      cases hfile : s.fileOf id with
      | none =>
          have hperform : s.perform (.read io id) = some (.notFound, s) := by
            simp only [perform, readChunk_missing hc hfile]
          refine ⟨s, ?_, ?_, rfl, fun _ _ _ hc' => (by cases hc'),
            fun i hs ht => ?_, fun i hi hdropped => absurd hi hdropped⟩
          · rw [step, hperform]
          · simp only [remember, hperform]
            exact h₀
          · rw [ht] at hs
            cases hs
      | some content =>
          obtain ⟨t, hread, hsound, huses⟩ := readChunk_sound h₀ hc hfile
          have hperform : s.perform (.read io id) = some (.ok, t) := by
            simp only [perform, hread]
          refine ⟨t, ?_, ?_, huses.size, fun _ _ _ hc' => (by cases hc'),
            fun i hs ht => .inr (hlost huses i hs ht), huse huses⟩
          · rw [step, hperform]
          · simp only [remember, hperform]
            exact hsound
  | remove io id =>
      obtain ⟨hsound, hcollector, hothers⟩ := removeChunk_sound h₀ hc id
      refine ⟨(s.removeChunk io id).2, rfl, hsound, ?_,
        fun _ _ _ hc' => (by cases hc'), fun i hs ht => .inl ⟨io, ?_⟩,
        fun i hi hdropped => ?_⟩
      · rw [hcollector]
      · by_cases hi : i = id
        · rw [hi]
        · rw [hothers i hi] at ht
          rw [ht] at hs
          cases hs
      · rw [hcollector] at hdropped
        exact absurd hi hdropped

/-- Runs of calls whose system calls succeed are defined and keep the
store sound. -/
theorem run_sound {size : Nat} (hsize : 0 < size) (calls : List StoreCall)
    (hfine : ∀ c ∈ calls, c.Fine) :
    ∃ s h, run size calls = some (s, h) ∧ Sound s h
      ∧ s.collector.size = size := by
  induction calls using List.reverseRecOn with
  | nil => exact ⟨_, _, rfl, sound_new hsize, rfl⟩
  | append_singleton calls c ih =>
      obtain ⟨s, h, hrun, hsound, hs⟩ := ih fun c hc =>
        hfine c (List.mem_append_left _ hc)
      obtain ⟨t, hstep, hsound', hsize', -⟩ := perform_sound hsound
        (hfine c (List.mem_append_right _ List.mem_cons_self))
      exact ⟨t, remember s h c, Machine.run_concat.2
        ⟨(s, h), hrun, Machine.noted_eq_some.2 ⟨hstep, rfl⟩⟩, hsound',
        hsize'.trans hs⟩

/-- What the store answers after the calls it was given: it lists the
chunks that have a file, at most `size`, and these read back what was
last written. -/
structure Answers (size : Nat) (s : ChunkStore) (h : History) : Prop where
  available : ∀ id, id ∈ s.available ↔ (s.fileOf id).isSome
  files : ∀ p, (s.files p).isSome → ∃ id ∈ s.available, p = idToPath id
  present : ∀ io id, io.AllOk → id ∈ s.available →
    ∃ content t, h.written id = some content
      ∧ s.readChunk io id = some (.ok content, t)
  absent : ∀ io id, io.AllOk → id ∉ s.available →
    s.readChunk io id = some (.error .notFound, s)
  bounded : s.available.card ≤ size

theorem Sound.answers (h₀ : Sound s h) :
    Answers s.collector.size s h := by
  refine ⟨h₀.listed, fun p hp => ?_, fun io id hio hid => ?_,
    fun io id hio hid => ?_, ?_⟩
  · obtain ⟨content, hp⟩ := Option.isSome_iff_exists.1 hp
    obtain ⟨id, rfl⟩ := h₀.files p content hp
    refine ⟨id, (h₀.listed id).2 ?_, rfl⟩
    rw [fileOf, hp]
    rfl
  · obtain ⟨content, hfile⟩ :=
      Option.isSome_iff_exists.1 ((h₀.listed id).1 hid)
    obtain ⟨t, hread, -⟩ := readChunk_sound h₀ hio hfile
    exact ⟨content, t, (h₀.held id content hfile).2.1, hread⟩
  · refine readChunk_missing hio ?_
    cases hfile : s.fileOf id with
    | none => rfl
    | some content =>
        refine absurd ((h₀.listed id).2 ?_) hid
        rw [hfile]
        rfl
  · have hsub : s.inStore ⊆ s.collector.ids.toFinset := by
      intro id hid
      obtain ⟨content, hfile⟩ :=
        Option.isSome_iff_exists.1 ((h₀.listed id).1 hid)
      exact List.mem_toFinset.2 (h₀.held id content hfile).1
    calc s.available.card ≤ s.collector.ids.toFinset.card :=
          Finset.card_le_card hsub
      _ ≤ s.collector.ids.length := List.toFinset_card_le _
      _ ≤ s.collector.size := h₀.tracks.length_le

/-- After every call of any sequence of calls on an empty store whose
system calls succeed, the store is the map of what was written last,
bounded by `size`; a chunk just written is in it, and what leaves it was
removed or was used the longest ago. -/
theorem boundedLru {size : Nat} (hsize : 0 < size) (calls : List StoreCall)
    (hfine : ∀ c ∈ calls, c.Fine) :
    ∃ s h, run size calls = some (s, h) ∧ Answers size s h
      ∧ ∀ c, c.Fine → ∃ t h', run size (calls ++ [c]) = some (t, h')
        ∧ (∀ io id buffer, c = .write io id buffer → id ∈ t.available)
        ∧ (∀ i, (s.fileOf i).isSome → t.fileOf i = none →
            (∃ io, c = .remove io i)
              ∨ (c.id ≠ i ∧ i ∈ s.collector.ids ∧ i ∉ t.collector.ids))
        ∧ DropsOldest s h t := by
  obtain ⟨s, h, hrun, hsound, hs⟩ := run_sound hsize calls hfine
  refine ⟨s, h, hrun, hs ▸ hsound.answers, fun c hc => ?_⟩
  obtain ⟨t, hstep, -, -, hwritten, hlost, holdest⟩ := perform_sound hsound hc
  exact ⟨t, remember s h c, Machine.run_concat.2
    ⟨(s, h), hrun, Machine.noted_eq_some.2 ⟨hstep, rfl⟩⟩, hwritten, hlost,
    holdest⟩

/-- Two chunks written to a store with room for one. -/
theorem boundedLru_two_chunks :
    ∃ s h, run 1 [.write {} 3 [10], .write {} 259 [20, 30]] = some (s, h)
      ∧ Answers 1 s h := by
  have hio : Io.AllOk {} := ⟨rfl, rfl, rfl, by simp⟩
  obtain ⟨s, h, hrun, hanswers, -⟩ := boundedLru Nat.one_pos
    [.write {} 3 [10], .write {} 259 [20, 30]] (by
      intro c hc
      rcases List.mem_cons.1 hc with rfl | hc
      · exact ⟨hio, by decide⟩
      · rw [List.mem_singleton.1 hc]
        exact ⟨hio, by decide⟩)
  exact ⟨s, h, hrun, hanswers⟩

end ChunkStore

end Distfs

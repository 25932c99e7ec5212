/-
`ChunkStore::write_chunk` when its system calls do not all succeed.

# What is asked

A call is all or nothing (`AllOrNothing`): it returns OK only with the
bytes in the file, and behind an error the store answers as before, now
and when it is opened again on its directory.

# What holds

The file is truncated when it is opened and written in place, and the
code gives up at the first call that fails or takes nothing. So a failure
goes unnoticed only where the file had, up to the length of a chunk, just
the bytes that got through; and OK is right only where all did
(`Untorn`).

# How it is shown

`Alike` relates two stores that differ in their files only, behind the
length of a chunk. Every operation the answers rest on respects it, down
to the loop of the constructor, and a restart scans the same ids because
it looks at names only (`scan_congr`).
-/
import Distfs.Data.Restart

namespace Distfs

open Transfer

namespace ChunkStore

-- ========================================================= the states

/-- The states of a store: its constructor over any directory, and any
calls, whatever becomes of their system calls. -/
def Reachable (size : Nat) (s : ChunkStore) : Prop :=
  ∃ d ios files start calls, construct d ios size files = some start
    ∧ Machine.run step start calls = some s

variable {s t u : ChunkStore} {io : Io} {id : UInt32} {size : Nat}

/-- The collector is in order, and as large as it was made. -/
def Ordered (size : Nat) (s : ChunkStore) : Prop :=
  s.collector.Coherent ∧ s.collector.size = size

/-- A use keeps what is in order. -/
theorem Ordered.touch (h : Ordered size s)
    (htouch : s.touch io id = some t) : Ordered size t := by
  obtain ⟨-, hcoherent, hsize, -⟩ := touch_spec h.1 htouch
  exact ⟨hcoherent, hsize.trans h.2⟩

/-- Entering the ids of a directory keeps it. -/
theorem Ordered.enter {ios : UInt32 → Io} (fuel : Nat) :
    ∀ (next : Option UInt32) (s : ChunkStore), Ordered size s →
      enter ios fuel next s = some t → Ordered size t := by
  induction fuel with
  | zero =>
      intro next s h henter
      cases next with
      | none => cases henter; exact h
      | some id => cases henter
  | succ fuel ih =>
      intro next s h henter
      cases next with
      | none => cases henter; exact h
      | some id =>
          rw [ChunkStore.enter] at henter
          split at henter
          · cases henter
          · next u htouch =>
            split at henter
            · exact ih _ u (h.touch htouch) henter
            · cases henter

/-- A write keeps it, whatever the system calls answer. -/
theorem Ordered.writeChunk (h : Ordered size s) {buffer : Bytes}
    {err : ErrorCode} (hwrite : s.writeChunk io id buffer = some (err, t)) :
    Ordered size t := by
  unfold ChunkStore.writeChunk at hwrite
  split at hwrite
  · cases hwrite
    exact h
  split at hwrite
  · cases hwrite
    exact h
  simp only at hwrite
  split at hwrite
  · cases hwrite
    exact h
  split at hwrite
  · cases hwrite
  · next u htouch =>
    cases hwrite
    have hu : Ordered size u := Ordered.touch (s := s.setFile id _) h htouch
    exact hu

/-- A read keeps it. -/
theorem Ordered.readChunk (h : Ordered size s) {r : Except ErrorCode Bytes}
    (hread : s.readChunk io id = some (r, t)) : Ordered size t := by
  unfold ChunkStore.readChunk at hread
  split at hread
  · cases hread
    exact h
  split at hread
  · cases hread
    exact h
  split at hread
  · cases hread
  · next u htouch =>
    simp only at hread
    split at hread
    · cases hread
      exact h.touch htouch
    · cases hread
      exact h.touch htouch

/-- Any call keeps it. -/
theorem Ordered.step (h : Ordered size s) {c : StoreCall}
    (hstep : s.step c = some t) : Ordered size t := by
  unfold ChunkStore.step at hstep
  split at hstep
  · cases hstep
  next err u hperform =>
  cases hstep
  cases c with
  | write io id buffer => exact h.writeChunk hperform
  | read io id =>
      unfold perform at hperform
      simp only at hperform
      split at hperform
      · cases hperform
      · next hread =>
        cases hperform
        exact h.readChunk hread
      · next hread =>
        cases hperform
        exact h.readChunk hread
  | remove io id =>
      have ht : t = (s.removeChunk io id).2 :=
        (congrArg Prod.snd (Option.some.inj hperform)).symm
      unfold Ordered
      rw [ht, collector_removeChunk]
      exact h

/-- Every state that can be reached is in order. -/
theorem Reachable.ordered (h : Reachable size s) : Ordered size s := by
  obtain ⟨d, ios, files, start, calls, hstart, hrun⟩ := h
  have hnew : Ordered size start :=
    Ordered.enter _ _ _ ⟨LruCollector.coherent_new size, rfl⟩ hstart
  exact Machine.run_invariant (fun s c t hs hstep => Ordered.step hs hstep)
    calls start s hnew hrun

-- ============================================== stores that answer alike

/-- Stores that differ in their files only, behind the length of a
chunk. -/
structure Alike (s t : ChunkStore) : Prop where
  inStore : t.inStore = s.inStore
  collector : t.collector = s.collector
  files : ∀ p, (t.files p).map (List.take chunkSizeBytes)
    = (s.files p).map (List.take chunkSizeBytes)

/-- Every store is like itself. -/
theorem Alike.refl (s : ChunkStore) : Alike s s :=
  ⟨rfl, rfl, fun _ => rfl⟩

/-- The stores have the same files. -/
theorem Alike.isSome (h : Alike s t) (p : ChunkPath) :
    (t.files p).isSome = (s.files p).isSome := by
  have := congrArg Option.isSome (h.files p)
  rwa [Option.isSome_map, Option.isSome_map] at this

/-- Stores that are alike stay so in a removal. -/
theorem Alike.removeChunk (h : Alike s t) (io : Io) (id : UInt32) :
    Alike (s.removeChunk io id).2 (t.removeChunk io id).2 := by
  have hsome := h.isSome (idToPath id)
  unfold ChunkStore.removeChunk fileOf
  cases hs : s.files (idToPath id) with
  | none =>
      rw [hs] at hsome
      rw [Option.not_isSome_iff_eq_none.1 (Bool.eq_false_iff.1 hsome)]
      exact h
  | some content =>
      rw [hs] at hsome
      obtain ⟨content', hcontent'⟩ := Option.isSome_iff_exists.1 hsome
      rw [hcontent']
      simp only
      split
      · exact h
      · refine ⟨?_, h.collector, fun p => ?_⟩
        · show t.inStore.erase id = s.inStore.erase id
          rw [h.inStore]
        · show (if p = idToPath id then none else t.files p).map _
            = (if p = idToPath id then none else s.files p).map _
          split
          · rfl
          · exact h.files p

/-- They stay so in a use. -/
theorem Alike.touch (h : Alike s t) (io : Io) (id : UInt32) :
    Option.Rel Alike (s.touch io id) (t.touch io id) := by
  unfold ChunkStore.touch
  rw [h.collector]
  cases s.collector.update id with
  | none => exact .none
  | some x =>
      obtain ⟨collector, gone⟩ := x
      have hnew : Alike { s with collector := collector }
          { t with collector := collector } := ⟨h.inStore, rfl, h.files⟩
      cases gone with
      | none => exact .some hnew
      | some last => exact .some (hnew.removeChunk io last)

/-- Nobody who lists or reads can tell the stores apart. -/
structure SameAnswers (s t : ChunkStore) : Prop where
  available : t.available = s.available
  reads : ∀ io id,
    (t.readChunk io id).map Prod.fst = (s.readChunk io id).map Prod.fst

/-- Stores that are alike answer the same. -/
theorem Alike.sameAnswers (h : Alike s t) : SameAnswers s t := by
  refine ⟨h.inStore, fun io id => ?_⟩
  have hfile := h.files (idToPath id)
  unfold ChunkStore.readChunk fileOf
  split
  · rfl
  cases hs : s.files (idToPath id) with
  | none =>
      rw [hs, Option.map_none, Option.map_eq_none_iff] at hfile
      rw [hfile]
      rfl
  | some content =>
      rw [hs, Option.map_some, Option.map_eq_some_iff] at hfile
      obtain ⟨content', ht, htake⟩ := hfile
      rw [ht]
      have htouch := h.touch io id
      simp only
      generalize s.touch io id = x at htouch
      generalize t.touch io id = y at htouch
      obtain ⟨hfailed, hgot⟩ := readLoop_congr chunkSizeBytes content'
        content io.script htake
      cases htouch with
      | none => rfl
      | some _ =>
          simp only [hfailed, hgot]
          split
          · rfl
          · rfl

-- ============================================================ a restart

/-- They enter the same ids. -/
theorem Alike.enter {ios : UInt32 → Io} (fuel : Nat) :
    ∀ (next : Option UInt32) (s t : ChunkStore), Alike s t →
      Option.Rel Alike (enter ios fuel next s) (enter ios fuel next t) := by
  induction fuel with
  | zero =>
      intro next s t h
      cases next with
      | none => exact .some h
      | some id => exact .none
  | succ fuel ih =>
      intro next s t h
      cases next with
      | none => exact .some h
      | some id =>
          have htouch := h.touch (ios id) id
          rw [ChunkStore.enter, ChunkStore.enter]
          generalize s.touch (ios id) id = x at htouch
          generalize t.touch (ios id) id = y at htouch
          cases htouch with
          | none => exact .none
          | some hab =>
              simp only [hab.inStore]
              split
              · exact ih _ _ _ hab
              · exact .none

/-- The scan finds what is parsed from the name of a file. -/
theorem mem_scan_of_shows {d : Listing} {files : ChunkPath → Option Bytes}
    (hshows : Shows d files) (id : UInt32) :
    id ∈ scan d ↔ ∃ p, (files p).isSome = true ∧ isDots p.outer = false
      ∧ isDots p.inner = false ∧ isDots p.name = false
      ∧ Parses p.name id := by
  rw [mem_scan_iff]
  constructor
  · rintro ⟨outers, -, outer, -, houter, inners, -, inner, -, hinner, names,
      hopen, name, hname, hdots, hparses⟩
    exact ⟨{ outer := outer, inner := inner, name := name },
      hshows.only _ names houter hinner hopen hname hdots, houter, hinner,
      hdots, hparses⟩
  · rintro ⟨p, hfile, houter, hinner, hdots, hparses⟩
    obtain ⟨⟨outers, hbase, hmem⟩, ⟨inners, hopen, hmem'⟩, names, hopen',
      hname⟩ := hshows.found p hfile
    exact ⟨outers, hbase, _, hmem, houter, inners, hopen, _, hmem', hinner,
      names, hopen', _, hname, hdots, hparses⟩

/-- Listings of the same files are scanned to the same ids. -/
theorem scan_congr {d d' : Listing} {files files' : ChunkPath → Option Bytes}
    (hsome : ∀ p, (files' p).isSome = (files p).isSome)
    (hshows : Shows d files) (hshows' : Shows d' files') :
    scan d' = scan d := by
  ext id
  rw [mem_scan_of_shows hshows, mem_scan_of_shows hshows']
  simp only [hsome]

/-- Results related by more are related by less. -/
theorem rel_imp {p q : ChunkStore → ChunkStore → Prop}
    {x y : Option ChunkStore} (himp : ∀ a b, p a b → q a b)
    (h : Option.Rel p x y) : Option.Rel q x y := by
  cases h with
  | none => exact .none
  | some hab => exact .some (himp _ _ hab)

/-- A store opened on the directory answers as before, whatever the order
of its listing. -/
def Reopens (s t : ChunkStore) : Prop :=
  ∀ d d' ios size, Shows d s.files → Shows d' t.files →
    Option.Rel SameAnswers (construct d ios size s.files)
      (construct d' ios size t.files)

/-- They are the same when they are opened again. -/
theorem Alike.reopens (h : Alike s t) : Reopens s t := by
  intro d d' ios size hshows hshows'
  unfold construct
  rw [scan_congr h.isSome hshows hshows']
  have hstart : Alike
      { files := s.files, inStore := scan d, collector := .new size }
      { files := t.files, inStore := scan d, collector := .new size } :=
    ⟨rfl, rfl, h.files⟩
  exact rel_imp (fun _ _ hab => hab.sameAnswers)
    (Alike.enter (scan d).card (nextFrom (scan d) 0) _ _ hstart)

-- ======================================================= all or nothing

/-- `write_chunk` is all or nothing: OK says that the file holds the
bytes, and behind an error nothing has changed for those who list, read
or open the store again. -/
def AllOrNothing (s : ChunkStore) (io : Io) (id : UInt32)
    (buffer : Bytes) : Prop :=
  ∀ err t, s.writeChunk io id buffer = some (err, t) →
    (err = .ok → t.fileOf id = some buffer)
      ∧ (err ≠ .ok → SameAnswers s t ∧ Reopens s t)

/-- The system calls end well for the file: it is not opened; or all of
the bytes are transferred; or one call fails where the file held, up to
the length of a chunk, just the bytes transferred before. -/
def Untorn (s : ChunkStore) (io : Io) (id : UInt32) (buffer : Bytes) :
    Prop :=
  io.mkdirFails = true ∨ io.openFails = true
    ∨ if (writeLoop io.script buffer).failed = true then
        ∃ old, s.fileOf id = some old ∧ old.take chunkSizeBytes
          = (writeLoop io.script buffer).written.take chunkSizeBytes
      else (writeLoop io.script buffer).written = buffer

/-- What `write_chunk` does once the file is open. -/
theorem writeChunk_opened {buffer : Bytes} (hdir : io.mkdirFails = false)
    (hopen : io.openFails = false) :
    s.writeChunk io id buffer =
      let r := writeLoop io.script buffer
      let s := s.setFile id (some r.written)
      if r.failed = true then some (.internalError, s)
      else (s.touch io id).map fun s =>
        (.ok, { s with inStore := insert id s.inStore }) := by
  unfold writeChunk createBaseDir
  rw [hdir, hopen]
  simp only [Bool.false_eq_true, if_false, ne_eq, not_true_eq_false]
  split
  · rfl
  · cases (s.setFile id _).touch io id with
    | none => rfl
    | some t => rfl

/-- A file that holds the same up to the length of a chunk makes no
difference. -/
theorem alike_setFile {old content : Bytes} (hold : s.fileOf id = some old)
    (htake : old.take chunkSizeBytes = content.take chunkSizeBytes) :
    Alike s (s.setFile id (some content)) := by
  refine ⟨rfl, rfl, fun p => ?_⟩
  show (if p = idToPath id then some content else s.files p).map _ = _
  split
  · next hp =>
    rw [hp, show s.files (idToPath id) = some old from hold, Option.map_some,
      Option.map_some, htake]
  · rfl

/-- With its system calls succeeding `read_chunk` shows a file up to the
length of a chunk. -/
theorem readChunk_take (hs : s.collector.Coherent)
    (hpos : 0 < s.collector.size) {content : Bytes}
    (hfile : s.fileOf id = some content) :
    (s.readChunk {} id).map Prod.fst
      = some (.ok (content.take chunkSizeBytes)) := by
  obtain ⟨t, htouch⟩ := touch_defined hs (.inl hpos) {} id
  obtain ⟨hfailed, hgot, -⟩ := readLoop_of_progress chunkSizeBytes
    { rest := content, script := [] } (fun c hc => by cases hc)
    chunkSizeBytes_pos
  simp only [ChunkStore.readChunk, hfile, htouch, hfailed, hgot,
    Bool.false_eq_true, if_false, Option.map_some]

/-- A failed `write_chunk` is not noticed only if the file held what got
through. -/
theorem torn_of_sameAnswers (hs : s.collector.Coherent)
    (hpos : 0 < s.collector.size) {content : Bytes}
    (hsame : SameAnswers s (s.setFile id (some content))) :
    ∃ old, s.fileOf id = some old
      ∧ old.take chunkSizeBytes = content.take chunkSizeBytes := by
  have hread := hsame.reads {} id
  rw [readChunk_take (s := s.setFile id _) hs hpos
    ((fileOf_setFile s id _ id).trans (if_pos rfl))] at hread
  cases hold : s.fileOf id with
  | none =>
      simp only [ChunkStore.readChunk, hold, Bool.false_eq_true, if_false]
        at hread
      cases hread
  | some old =>
      rw [readChunk_take hs hpos hold] at hread
      refine ⟨old, rfl, ?_⟩
      injection hread with hread
      injection hread with hread
      exact hread.symm

/-- In every state of a store `write_chunk` is all or nothing if and only
if its system calls end well for the file. -/
theorem writeChunk_allOrNothing_iff (hs : Reachable size s)
    (hsize : 0 < size) (io : Io) (id : UInt32) (buffer : Bytes) :
    AllOrNothing s io id buffer ↔ Untorn s io id buffer := by
  obtain ⟨hcoherent, rfl⟩ := hs.ordered
  unfold AllOrNothing Untorn
  -- a call that does not get to open the file changes nothing
  have hsame : ∀ t, t = s → SameAnswers s t ∧ Reopens s t := by
    rintro t rfl
    exact ⟨(Alike.refl t).sameAnswers, (Alike.refl t).reopens⟩
  by_cases hdir : io.mkdirFails = true
  · refine iff_of_true (fun err t hwrite => ?_) (.inl hdir)
    simp only [ChunkStore.writeChunk, createBaseDir, hdir] at hwrite
    cases hwrite
    exact ⟨fun herr => (by cases herr), fun _ => hsame s rfl⟩
  by_cases hopen : io.openFails = true
  · refine iff_of_true (fun err t hwrite => ?_) (.inr (.inl hopen))
    simp only [ChunkStore.writeChunk, createBaseDir, hdir, hopen] at hwrite
    cases hwrite
    exact ⟨fun herr => (by cases herr), fun _ => hsame s rfl⟩
  rw [writeChunk_opened (by simpa using hdir) (by simpa using hopen)]
  simp only [hdir, hopen, Bool.false_eq_true, false_or]
  generalize writeLoop io.script buffer = r
  by_cases hfailed : r.failed = true
  · simp only [if_pos hfailed]
    constructor
    · intro h
      obtain ⟨hsame, -⟩ := (h _ _ rfl).2 (by simp)
      exact torn_of_sameAnswers hcoherent hsize hsame
    · rintro ⟨old, hold, htake⟩ err t hwrite
      cases hwrite
      have halike := alike_setFile hold htake
      exact ⟨fun herr => (by cases herr),
        fun _ => ⟨halike.sameAnswers, halike.reopens⟩⟩
  · simp only [if_neg hfailed]
    obtain ⟨t, htouch⟩ := touch_defined (s := s.setFile id (some r.written))
      hcoherent (.inl hsize) io id
    -- a use of the chunk does not evict it
    have hfile : t.fileOf id = some r.written := by
      rw [(touch_spec (s := s.setFile id _) hcoherent htouch).1,
        fileOf_setFile, if_pos rfl]
    rw [htouch]
    constructor
    · intro h
      have := (h _ _ rfl).1 rfl
      exact Option.some.inj (hfile.symm.trans this)
    · intro hall err u hwrite
      cases hwrite
      exact ⟨fun _ => hfile.trans (congrArg some hall),
        fun herr => absurd rfl herr⟩

/-- A new store is reached without calls. -/
theorem reachable_new (size : Nat) : Reachable size (new size) := by
  refine ⟨{ base := none, outer := fun _ => none, inner := fun _ _ => none },
    fun _ => {}, fun _ => none, new size, [], ?_, rfl⟩
  have hnext : nextFrom ∅ 0 = none := by
    unfold nextFrom
    simp
  show enter (fun _ => {}) (∅ : Finset UInt32).card (nextFrom ∅ 0) (new size)
    = _
  rw [hnext, Finset.card_empty]
  rfl

/-- A write of one byte that goes well. -/
theorem allOrNothing_one_byte : AllOrNothing (new 1) {} 0 [1] :=
  (writeChunk_allOrNothing_iff (reachable_new 1) Nat.one_pos {} 0 [1]).2
    (.inr (.inr (by
      rw [writeLoop_of_progress [1] [] (fun c hc => by cases hc)]
      rfl)))

/-- The disk is full behind the first of two bytes: the error leaves a
chunk of one byte that reads as OK. -/
theorem writeChunk_torn :
    Reachable 1 (new 1) ∧ ∃ t,
      (new 1).writeChunk { script := [.upTo 1, .fail] } 0 [1, 2]
          = some (.internalError, t)
        ∧ ((new 1).readChunk {} 0).map Prod.fst = some (.error .notFound)
        ∧ (t.readChunk {} 0).map Prod.fst = some (.ok [1])
        ∧ ¬ AllOrNothing (new 1) { script := [.upTo 1, .fail] } 0 [1, 2] := by
  have hloop : writeLoop [.upTo 1, .fail] [1, 2]
      = { failed := true, written := [1] } := by
    rw [writeLoop]
    show (if _h : _ then _ else _) = _
    rw [dif_pos (by decide), writeLoop]
    rfl
  have hwrite : (new 1).writeChunk { script := [.upTo 1, .fail] } 0 [1, 2]
      = some (.internalError, (new 1).setFile 0 (some [1])) := by
    rw [writeChunk_opened rfl rfl]
    simp only [hloop, if_true]
  have hafter : (((new 1).setFile 0 (some [1])).readChunk {} 0).map Prod.fst
      = some (.ok [1]) := by
    have hread := @readChunk_take ((new 1).setFile 0 (some [1])) 0
      (LruCollector.coherent_new 1) Nat.one_pos [1]
      ((fileOf_setFile (new 1) 0 (some [1]) 0).trans (if_pos rfl))
    rw [List.take_of_length_le (by rw [chunkSizeBytes_eq]; decide)] at hread
    exact hread
  refine ⟨reachable_new 1, _, hwrite, rfl, hafter, fun h => ?_⟩
  obtain ⟨hsame, -⟩ := (h _ _ hwrite).2 (by simp)
  have hread := hsame.reads {} 0
  rw [hafter] at hread
  cases hread

end ChunkStore

end Distfs

/-
What a `ChunkBuilder` leaves of the store when no `build` has succeeded.

The builder treats the store as its own: it writes the chunks of its
stream under their numbers, reloads what is listed under a number, and
its destructor removes what is listed, whoever wrote it. Only a `build`
that succeeds keeps it from that (`performAll_built`). So an abandoned
build ends with a store that lists nothing (`Abandoned.clears`).

# Files that are not listed

The destructor does not see them: files that were there before, and what
is left of a write that is cut short. As long as there are neither, every
file is listed (`Abandoned.filesListed`) and none is left. The store is
then as it was exactly if there was nothing in it.
-/
import Distfs.Data.CompressedOps

namespace Distfs

open Transfer

namespace ChunkBuilder

section Built

variable {σ : Type} {ops : ChunkOps σ} {b b' : ChunkBuilder σ}
  {err : ErrorCode}

-- ================================================== who sets `built`

/-- Moving does not set `built`. -/
theorem movePos_built {n : Nat} (h : movePos ops b n = some (err, b')) :
    b'.built = b.built := by
  unfold movePos at h
  split at h
  · split at h
    · cases h
    split at h
    · cases h
      rfl
    simp only at h
    split at h
    · split at h
      · cases h
      · cases h
        rfl
      · cases h
        rfl
    · cases h
      rfl
  · cases h
    rfl

/-- Writing does not set `built`. -/
theorem writeData_built (data : Bytes) :
    ∀ b : ChunkBuilder σ, writeData ops b data = some (err, b') →
      b'.built = b.built := by
  induction hlen : data.length using Nat.strong_induction_on
    generalizing data with
  | _ n ih =>
      intro b h
      rw [writeData] at h
      split at h
      · next hpos =>
        have hmod := Nat.mod_lt b.pos chunkSizeBytes_pos
        simp only at h
        generalize hnext : min (chunkSizeBytes - b.pos % chunkSizeBytes)
          data.length = next at h
        split at h
        · cases h
        next err₁ b₁ hmove =>
        have hb₁ := movePos_built hmove
        change b₁.built = b.built at hb₁
        split at h
        · cases h
          exact hb₁
        · rw [← hb₁]
          exact ih (data.drop next).length
            (by rw [List.length_drop]; omega) (data.drop next) rfl b₁ h
      · cases h
        rfl

/-- Adding a file does not set `built`. -/
theorem fileLoop_built (fd : Fd) :
    ∀ (b : ChunkBuilder σ) (length length' : Nat),
      fileLoop ops b fd length = some (err, length', b') →
      b'.built = b.built := by
  induction hlen : fd.rest.length using Nat.strong_induction_on
    generalizing fd with
  | _ n ih =>
      intro b length length' h
      obtain ⟨hrest, hgot⟩ := readLoop_rest fd chunkSizeBytes
      rw [fileLoop] at h
      generalize readLoop fd chunkSizeBytes = r at h hrest hgot
      simp only at h
      split at h
      · split at h
        · cases h
        split at h
        · cases h
        next hwrite =>
        have hbuilt := writeData_built _ b hwrite
        split at h
        all_goals
          rw [Option.some.injEq, Prod.mk.injEq, Prod.mk.injEq] at h
          rw [← h.2.2]
          exact hbuilt
      · next hfailed =>
        split at h
        · cases h
        next b₁ hwrite =>
        have hb₁ : b₁.built = b.built := writeData_built _ b hwrite
        split at h
        · cases h
          exact hb₁
        split at h
        · cases h
          exact hb₁
        · next hend =>
          have hmore := hgot (by simpa using hfailed) (by simpa using hend)
          rw [← hb₁]
          exact ih r.fd.rest.length (by omega) r.fd rfl b₁ _ _ h

/-- Only `build` sets `built`. -/
theorem serve_built {r : Request} {reply : Reply}
    (h : serve ops b r = some (reply, b')) : b'.built = b.built := by
  cases r with
  | addFile source =>
      cases source with
      | notFound | denied =>
          cases h
          rfl
      | opened fd =>
          simp only [serve, addFile] at h
          split at h
          · cases h
          · next hloop =>
            cases h
            exact fileLoop_built fd b 0 _ hloop
  | reserve length =>
      simp only [serve, reserve] at h
      split at h
      · cases h
      · next hmove =>
        cases h
        exact movePos_built hmove
  | write offset data =>
      simp only [serve, write] at h
      split at h
      · cases h
      next b₁ hmove =>
      have hb₁ : b₁.built = b.built := movePos_built hmove
      split at h
      · cases h
        exact hb₁
      split at h
      · cases h
      · next hwrite =>
        cases h
        exact (writeData_built data b₁ hwrite).trans hb₁

/-- And only one that succeeds. -/
theorem perform_built {c : Operation} (h : perform ops b c = some (err, b'))
    (hnot : (c, err) ≠ (.build, .ok)) : b'.built = b.built := by
  cases c with
  | request r =>
      simp only [perform] at h
      split at h
      · cases h
      · next hserve =>
        cases h
        exact serve_built hserve
  | build =>
      simp only [perform, build] at h
      split at h
      · cases h
      · cases h
        have herr : err ≠ .ok := fun heq => hnot (by rw [heq])
        show (b.built || decide (err = .ok)) = b.built
        rw [decide_eq_false herr, Bool.or_false]

/-- So without one nothing has been built at the end of a run. -/
theorem performAll_built (cs : List Operation) :
    ∀ (b : ChunkBuilder σ) (log : List (Operation × ErrorCode)),
      performAll ops b cs = some (log, b') → (.build, .ok) ∉ log →
      b'.built = b.built := by
  induction cs with
  | nil =>
      intro b log h _
      cases h
      rfl
  | cons c cs ih =>
      intro b log h hnot
      rw [performAll] at h
      split at h
      · cases h
      next err b₁ hperform =>
      split at h
      · cases h
      next log' b₂ hrest =>
      cases h
      rw [List.mem_cons, not_or] at hnot
      rw [ih b₁ log' hrest hnot.2]
      exact perform_built hperform (Ne.symm hnot.1)

end Built

-- ======================================================= the removals

/-- The destructor goes through all ids of the set. -/
theorem mem_inOrder {ids : Finset UInt32} {id : UInt32} :
    id ∈ inOrder ids ↔ id ∈ ids := by
  unfold inOrder
  rw [List.mem_map]
  constructor
  · rintro ⟨n, hn, rfl⟩
    obtain ⟨i, hi, rfl⟩ := Finset.mem_image.1 ((Finset.mem_sort _).1 hn)
    rwa [UInt32.ofNat_toNat]
  · intro hid
    exact ⟨id.toNat, (Finset.mem_sort _).2 (Finset.mem_image_of_mem _ hid),
      UInt32.ofNat_toNat⟩


/-- The destructor goes through each id once. -/
theorem nodup_inOrder (ids : Finset UInt32) : (inOrder ids).Nodup := by
  unfold inOrder
  refine List.Nodup.map_on (fun m hm n hn heq => ?_) (Finset.sort_nodup _ _)
  obtain ⟨i, -, rfl⟩ := Finset.mem_image.1 ((Finset.mem_sort _).1 hm)
  obtain ⟨j, -, rfl⟩ := Finset.mem_image.1 ((Finset.mem_sort _).1 hn)
  rw [UInt32.ofNat_toNat, UInt32.ofNat_toNat] at heq
  rw [heq]

end ChunkBuilder

namespace ChunkStore

variable {s t : ChunkStore} {io : Io} {id : UInt32}

/-- A removal that answers OK takes the chunk out of the store. -/
theorem removeChunk_of_ok (h : (s.removeChunk io id).1 = .ok) :
    (s.removeChunk io id).2.inStore = s.inStore.erase id
      ∧ ∀ i, (s.removeChunk io id).2.fileOf i
        = if i = id then none else s.fileOf i := by
  unfold removeChunk at h ⊢
  split at h
  · cases h
  · split at h
    · cases h
    · next hunlink =>
      rw [if_neg hunlink]
      exact ⟨rfl, fileOf_setFile s id none⟩

/-- A removal succeeds if the chunk has a file and `unlink` works. -/
theorem removeChunk_ok (hfile : (s.fileOf id).isSome)
    (hio : io.unlinkFails = false) : (s.removeChunk io id).1 = .ok := by
  obtain ⟨content, hcontent⟩ := Option.isSome_iff_exists.1 hfile
  unfold removeChunk
  rw [hcontent]
  simp only [hio, Bool.false_eq_true, if_false]

/-- The store lists the same chunks, and has the same files: what
`read_chunk` delivers is the same for every id. -/
def SameChunks (s t : ChunkStore) : Prop :=
  t.available = s.available ∧ ∀ id, t.fileOf id = s.fileOf id

-- ====================================================== files and the list

/-- Every file is that of a listed chunk. -/
def FilesListed (s : ChunkStore) : Prop :=
  ∀ id, (s.fileOf id).isSome → id ∈ s.available

/-- A write that gets to its file gets through it. -/
def NeverCutShort (io : Io) : Prop :=
  createBaseDir io ≠ .ok ∨ io.openFails = true
    ∨ ∀ buffer, (writeLoop io.script buffer).failed = false

section Listed

variable {p : UInt32 → Prop}

/-- A removal leaves files that are listed listed. -/
theorem removeChunk_listed (h : ∀ i, p i → (s.fileOf i).isSome →
      i ∈ s.inStore) (io : Io) (id : UInt32) :
    ∀ i, p i → ((s.removeChunk io id).2.fileOf i).isSome →
      i ∈ (s.removeChunk io id).2.inStore := by
  intro i hp hi
  by_cases hok : (s.removeChunk io id).1 = .ok
  · obtain ⟨hin, hfile⟩ := removeChunk_of_ok hok
    rw [hfile] at hi
    rw [hin, Finset.mem_erase]
    by_cases heq : i = id
    · rw [if_pos heq] at hi
      cases hi
    · rw [if_neg heq] at hi
      exact ⟨heq, h i hp hi⟩
  · have hsame : (s.removeChunk io id).2 = s := by
      unfold removeChunk at hok ⊢
      split
      · rfl
      · split
        · rfl
        · next hfile hunlink =>
          rw [hfile] at hok
          simp only [if_neg hunlink, not_true_eq_false] at hok
    rw [hsame] at hi ⊢
    exact h i hp hi

/-- An update of the collector takes a chunk out of both. -/
theorem touch_listed (h : ∀ i, p i → (s.fileOf i).isSome → i ∈ s.inStore)
    (ht : s.touch io id = some t) :
    ∀ i, p i → (t.fileOf i).isSome → i ∈ t.inStore := by
  unfold touch at ht
  split at ht
  · cases ht
  · cases ht
    exact h
  · next collector last _ =>
    cases ht
    exact removeChunk_listed (s := { s with collector := collector }) h io last

/-- A write that is not cut short lists its file. -/
theorem FilesListed.writeChunk (h : s.FilesListed) (hio : NeverCutShort io)
    {buffer : Bytes} {err : ErrorCode}
    (hwrite : s.writeChunk io id buffer = some (err, t)) :
    t.FilesListed := by
  unfold ChunkStore.writeChunk at hwrite
  split at hwrite
  · cases hwrite
    exact h
  next hdir =>
  split at hwrite
  · cases hwrite
    exact h
  next hopen =>
  have hloop : (writeLoop io.script buffer).failed = false :=
    (hio.resolve_left hdir).resolve_left hopen buffer
  simp only [hloop, Bool.false_eq_true, if_false] at hwrite
  split at hwrite
  · cases hwrite
  next u ht =>
  cases hwrite
  -- all files but the new one are listed, and then this one is
  have hothers := touch_listed (p := (· ≠ id)) (fun i hi hfile => by
    rw [fileOf_setFile, if_neg hi] at hfile
    exact h i hfile) ht
  intro i hi
  show i ∈ insert id u.inStore
  rw [Finset.mem_insert]
  by_cases heq : i = id
  · exact .inl heq
  · exact .inr (hothers i heq hi)

/-- A read keeps every file listed. -/
theorem FilesListed.readChunk (h : s.FilesListed)
    {x : Except ErrorCode Bytes} (hread : s.readChunk io id = some (x, t)) :
    t.FilesListed := by
  have htouch : ∀ {u : ChunkStore}, s.touch io id = some u →
      u.FilesListed := fun ht id hid =>
    touch_listed (p := fun _ => True) (fun i _ => h i) ht id trivial hid
  unfold ChunkStore.readChunk at hread
  split at hread
  · cases hread
    exact h
  split at hread
  · cases hread
    exact h
  split at hread
  · cases hread
  · next u ht =>
    simp only at hread
    split at hread
    · cases hread
      exact htouch ht
    · cases hread
      exact htouch ht

end Listed

end ChunkStore

namespace ChunkBuilder

variable {z : Lz4} {ios : Nat → Io}

/-- Removals that all answer OK take out their chunks, and no others. -/
theorem removeAll_spec (ids : List UInt32) : ∀ s : ChunkStore × Nat,
    (∀ err ∈ (removeAll (CompressedStore.ops z ios) s ids).1, err = .ok) →
    (∀ i, i ∈ (removeAll (CompressedStore.ops z ios) s ids).2.1.available
        ↔ i ∈ s.1.available ∧ i ∉ ids)
      ∧ ∀ i, (removeAll (CompressedStore.ops z ios) s ids).2.1.fileOf i
        = if i ∈ ids then none else s.1.fileOf i := by
  induction ids with
  | nil => exact fun s _ => ⟨by simp [removeAll], by simp [removeAll]⟩
  | cons id ids ih =>
      intro s hok
      have hfirst : (s.1.removeChunk (ios s.2) id).1 = .ok :=
        hok _ List.mem_cons_self
      obtain ⟨hin, hfile⟩ := ChunkStore.removeChunk_of_ok hfirst
      obtain ⟨hin', hfile'⟩ := ih ((s.1.removeChunk (ios s.2) id).2, s.2 + 1)
        fun err herr => hok err (List.mem_cons_of_mem _ herr)
      constructor
      · intro i
        refine (hin' i).trans ?_
        show i ∈ (s.1.removeChunk (ios s.2) id).2.inStore ∧ _ ↔ _
        rw [hin, Finset.mem_erase, List.mem_cons, not_or, and_comm
          (a := i ≠ id), and_assoc]
        rfl
      · intro i
        refine (hfile' i).trans ?_
        show (if _ then none else (s.1.removeChunk (ios s.2) id).2.fileOf i)
          = _
        rw [hfile]
        by_cases hi : i = id
        · simp [hi]
        · simp [hi]

/-- Removals of chunks that have files all answer OK, if `unlink`
works. -/
theorem removeAll_ok (hios : ∀ n, (ios n).unlinkFails = false)
    (ids : List UInt32) (hnodup : ids.Nodup) : ∀ s : ChunkStore × Nat,
    (∀ id ∈ ids, (s.1.fileOf id).isSome) →
    ∀ err ∈ (removeAll (CompressedStore.ops z ios) s ids).1, err = .ok := by
  induction ids with
  | nil => exact fun s _ err herr => absurd herr List.not_mem_nil
  | cons id ids ih =>
      intro s hfiles
      obtain ⟨hid, hnodup'⟩ := List.nodup_cons.1 hnodup
      obtain ⟨hfirst, hrest⟩ := List.forall_mem_cons.1 hfiles
      have hok := ChunkStore.removeChunk_ok hfirst (hios s.2)
      obtain ⟨-, hfile⟩ := ChunkStore.removeChunk_of_ok hok
      refine List.forall_mem_cons.2 ⟨hok,
        ih hnodup' ((s.1.removeChunk (ios s.2) id).2, s.2 + 1)
          fun i hi => ?_⟩
      rw [hfile, if_neg fun heq => hid (by rw [← heq]; exact hi)]
      exact hrest i hi

/-- The operations of a builder keep every file listed, if no write is cut
short. -/
theorem follows_filesListed
    (hios : ∀ n, ChunkStore.NeverCutShort (ios n)) :
    (CompressedStore.ops z ios).Follows (CompressedStore.ops z ios)
      (fun _ => True) fun s t => t = s ∧ s.1.FilesListed := by
  refine .invariant ?_ ?_
  · intro s id b err s' h _ hwrite
    simp only [CompressedStore.ops, CompressedStore.writeChunk] at hwrite
    split at hwrite
    · cases hwrite
    next t heq =>
    cases hwrite
    split at heq
    · cases heq
      exact h
    · exact h.writeChunk (hios s.2) heq
  · intro s id x s' h _ hread
    simp only [CompressedStore.ops, CompressedStore.readChunk] at hread
    split at hread
    · cases hread
    next t heq =>
    cases hread
    split at heq
    · cases heq
    · next hfailed =>
      cases heq
      exact h.readChunk hfailed
    · next hdone =>
      split at heq
      · cases heq
        exact h.readChunk hdone
      · cases heq
        exact h.readChunk hdone

-- ================================================== an abandoned build

/-- A build over the store `s` that is abandoned: of the calls `cs` no
`build` succeeds, then comes the destructor, and its removals succeed.
`b` is the builder before it, `t` the store behind it. -/
def Abandoned (z : Lz4) (ios : Nat → Io) (s : ChunkStore) (buff : Mem)
    (cs : List Operation) (b : ChunkBuilder (ChunkStore × Nat))
    (t : ChunkStore × Nat) : Prop :=
  ∃ log errs,
    performAll (CompressedStore.ops z ios) (new (s, 0) buff) cs
        = some (log, b)
      ∧ (.build, .ok) ∉ log
      ∧ destroy (CompressedStore.ops z ios) b = (errs, t)
      ∧ ∀ err ∈ errs, err = .ok

variable {s : ChunkStore} {buff : Mem} {cs : List Operation}
  {b : ChunkBuilder (ChunkStore × Nat)} {t : ChunkStore × Nat}

/-- The destructor takes out what is listed, and nothing else. -/
theorem Abandoned.clears (h : Abandoned z ios s buff cs b t) :
    t.1.available = ∅
      ∧ ∀ id, t.1.fileOf id = if id ∈ b.store.1.available then none
        else b.store.1.fileOf id := by
  obtain ⟨log, errs, hrun, hnot, hdestroy, hok⟩ := h
  have hbuilt : b.built = false := performAll_built cs _ log hrun hnot
  unfold destroy at hdestroy
  rw [if_neg (by rw [hbuilt]; exact Bool.false_ne_true)] at hdestroy
  have herrs : (removeAll (CompressedStore.ops z ios) b.store
      (inOrder b.store.1.available)).1 = errs := congrArg Prod.fst hdestroy
  have ht : (removeAll (CompressedStore.ops z ios) b.store
      (inOrder b.store.1.available)).2 = t := congrArg Prod.snd hdestroy
  obtain ⟨hlisted, hfiles⟩ := @removeAll_spec z ios
    (inOrder b.store.1.available) b.store (by rw [herrs]; exact hok)
  rw [ht] at hlisted hfiles
  constructor
  · ext id
    rw [hlisted, mem_inOrder]
    simp
  · intro id
    rw [hfiles]
    simp only [mem_inOrder]

/-- Before the destructor every file is listed, if that was so before the
build and no write is cut short. -/
theorem Abandoned.filesListed (h : Abandoned z ios s buff cs b t)
    (hlisted : s.FilesListed)
    (hios : ∀ n, ChunkStore.NeverCutShort (ios n)) :
    b.store.1.FilesListed := by
  obtain ⟨log, errs, hrun, -⟩ := h
  exact performAll_invariant (follows_filesListed hios) cs _ log hrun hlisted

/-- Behind an abandoned build the store lists nothing, and of what it
listed no file is left; other files are as they were. If all were listed
before the build and no write was cut short there is no file left at all,
and the store is as it was if and only if there was no chunk in it. -/
theorem abandoned_build_empties (h : Abandoned z ios s buff cs b t) :
    t.1.available = ∅
      ∧ (∀ id, t.1.fileOf id = if id ∈ b.store.1.available then none
        else b.store.1.fileOf id)
      ∧ (s.FilesListed → (∀ n, ChunkStore.NeverCutShort (ios n)) →
        (∀ id, t.1.fileOf id = none)
          ∧ (s.SameChunks t.1 ↔ s.available = ∅)) := by
  obtain ⟨hnone, hfiles⟩ := h.clears
  refine ⟨hnone, hfiles, fun hlisted hios => ?_⟩
  have hgone : ∀ id, t.1.fileOf id = none := by
    intro id
    rw [hfiles]
    split
    · rfl
    · next hnot =>
      exact Option.not_isSome_iff_eq_none.1
        (mt (h.filesListed hlisted hios id) hnot)
  refine ⟨hgone, fun hsame => ?_, fun hempty => ⟨?_, fun id => ?_⟩⟩
  · rw [← hsame.1]
    exact hnone
  · exact hnone.trans hempty.symm
  · refine (hgone id).trans
      (Option.not_isSome_iff_eq_none.1 fun hsome => ?_).symm
    have hid := hlisted id hsome
    rw [hempty] at hid
    exact Finset.notMem_empty id hid

/-- A store with one chunk, and a build that is abandoned because its
source file is missing. -/
theorem exists_abandoned (buff : Mem) : ∃ s b t,
    (ChunkStore.new 1).writeChunk {} 7 [1] = some (.ok, s)
      ∧ Abandoned .literal (fun _ => {}) s buff
        [.request (.addFile .notFound)] b t
      ∧ s.FilesListed ∧ 7 ∈ s.available ∧ s.fileOf 7 = some [1] := by
  have hio : Io.AllOk {} := ⟨rfl, rfl, rfl, fun c hc => (by cases hc)⟩
  obtain ⟨s, hwrite, hsound, -, hlisted⟩ := ChunkStore.writeChunk_sound
    (ChunkStore.sound_new Nat.one_pos) hio 7
    (show [1].length ≤ chunkSizeBytes from chunkSizeBytes_pos)
  obtain ⟨content, hfile⟩ :=
    Option.isSome_iff_exists.1 ((hsound.listed 7).1 hlisted)
  obtain ⟨-, hwritten, -⟩ := hsound.held 7 content hfile
  refine ⟨s, new (s, 0) buff, _, hwrite,
    ⟨[(.request (.addFile .notFound), .notFound)], _, rfl, ?_, rfl, ?_⟩,
    fun id => (hsound.listed id).2, hlisted, ?_⟩
  · exact fun hmem => by cases List.mem_singleton.1 hmem
  · show ∀ err ∈ (removeAll (CompressedStore.ops .literal fun _ => {}) (s, 0)
      (inOrder s.available)).1, err = .ok
    refine removeAll_ok (fun _ => rfl) _ (nodup_inOrder _) (s, 0) ?_
    exact fun id hid => (hsound.listed id).1 (mem_inOrder.1 hid)
  · rw [hfile, ← hwritten]
    rfl

/-- The store with one chunk: nothing is left of it. -/
theorem abandoned_build_one_chunk : ∃ s b t,
    Abandoned .literal (fun _ => {}) s (fun _ => 0)
        [.request (.addFile .notFound)] b t
      ∧ 7 ∈ s.available ∧ t.1.available = ∅
      ∧ (∀ id, t.1.fileOf id = none)
      ∧ (s.SameChunks t.1 ↔ s.available = ∅) := by
  obtain ⟨s, b, t, -, habandoned, hlisted, hseven, -⟩ :=
    exists_abandoned fun _ => 0
  obtain ⟨hnone, -, hrest⟩ := abandoned_build_empties habandoned
  obtain ⟨hgone, hsame⟩ := hrest hlisted fun _ =>
    .inr (.inr fun buffer => (writeLoop_of_progress buffer []
      fun c hc => by cases hc) ▸ rfl)
  exact ⟨s, b, t, habandoned, hseven, hnone, hgone, hsame⟩

/-- The chunk that was there before is lost. -/
theorem abandoned_build_loses_chunk : ∃ s b t,
    (ChunkStore.new 1).writeChunk {} 7 [1] = some (.ok, s)
      ∧ Abandoned .literal (fun _ => {}) s (fun _ => 0)
        [.request (.addFile .notFound)] b t
      ∧ s.fileOf 7 = some [1] ∧ t.1.available = ∅ ∧ ¬ s.SameChunks t.1 := by
  obtain ⟨s, b, t, hwrite, habandoned, -, hlisted, hfile⟩ :=
    exists_abandoned fun _ => 0
  obtain ⟨hnone, -⟩ := habandoned.clears
  refine ⟨s, b, t, hwrite, habandoned, hfile, hnone, fun hsame => ?_⟩
  rw [← hsame.1, hnone] at hlisted
  exact Finset.notMem_empty 7 hlisted

end ChunkBuilder

end Distfs

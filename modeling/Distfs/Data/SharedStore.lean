/-
`ChunkStore` called by any number of threads at once.

# Steps

A step is one system call on the file of a chunk (create and write, open,
unlink), one update of the collector with its eviction callback, or one
section under `store_mutex`. Between them the other threads go on. System
calls succeed, but for ENOENT. The bytes that a read delivers are left
out: it has no step that changes the store after its update of the
collector.

# What goes wrong

A write creates the file first and lists the chunk last; a removal unlinks
first and erases last. If the file goes away in between the one, or comes
back in between the other, the last step makes `in_store` wrong for good
(`listed_without_file`). Where no step does so (`Safe`), files and set
differ only by calls in flight (`agrees_iff_safe`), and not at all when
there is none (`available_iff_file`).
-/
import Distfs.Data.StoreRuns
import Mathlib.Logic.Function.Basic

namespace Distfs

/-- Where a thread is in a call of the store. -/
inductive StorePc where
  | idle
  | create (id : UInt32) (buffer : Bytes)
  | writeUpdate (id : UInt32)
  | insert (id : UInt32)
  | openFile (id : UInt32)
  | readUpdate (id : UInt32)
  | readFile
  | unlink (id : UInt32)
  | erase (id : UInt32)
  | done (err : ErrorCode)

namespace StorePc

/-- Whether a thread is in no call. -/
def resting : StorePc → Bool
  | .idle | .done _ => true
  | _ => false

/-- The chunk whose file a thread has written, and not yet listed. -/
def writing : StorePc → Option UInt32
  | .writeUpdate id | .insert id => some id
  | _ => none

/-- The chunk whose file a thread has unlinked, and not yet erased. -/
def removing : StorePc → Option UInt32
  | .erase id => some id
  | _ => none

theorem writing_of_resting {pc : StorePc} (h : pc.resting) :
    pc.writing = none := by
  cases pc <;> first | rfl | cases h

theorem removing_of_resting {pc : StorePc} (h : pc.resting) :
    pc.removing = none := by
  cases pc <;> first | rfl | cases h

end StorePc

/-- `ChunkStore`, with its threads. -/
structure SharedStore where
  store : ChunkStore
  threads : Nat → StorePc

namespace SharedStore

/-- A store that no thread is calling. -/
def new (store : ChunkStore) : SharedStore :=
  { store := store, threads := fun _ => .idle }

/-- A thread changes the store and goes on. -/
def goto (s : SharedStore) (t : Nat) (store : ChunkStore) (pc : StorePc) :
    SharedStore :=
  { store := store, threads := Function.update s.threads t pc }

/-- The next step of a thread. -/
def stepThread (s : SharedStore) (t : Nat) : Option SharedStore :=
  match s.threads t with
  | .idle | .done _ => none
  -- write_chunk
  | .create id buffer =>
      some (s.goto t (s.store.setFile id (some buffer)) (.writeUpdate id))
  | .writeUpdate id =>
      match s.store.touch {} id with
      | none => none
      | some store => some (s.goto t store (.insert id))
  | .insert id =>
      some (s.goto t { s.store with inStore := insert id s.store.inStore }
        (.done .ok))
  -- read_chunk
  | .openFile id =>
      match s.store.fileOf id with
      | none => some (s.goto t s.store (.done .notFound))
      | some _ => some (s.goto t s.store (.readUpdate id))
  | .readUpdate id =>
      match s.store.touch {} id with
      | none => none
      | some store => some (s.goto t store .readFile)
  | .readFile => some (s.goto t s.store (.done .ok))
  -- remove_chunk
  | .unlink id =>
      match s.store.fileOf id with
      | none => some (s.goto t s.store (.done .notFound))
      | some _ => some (s.goto t (s.store.setFile id none) (.erase id))
  | .erase id =>
      some (s.goto t { s.store with inStore := s.store.inStore.erase id }
        (.done .ok))

/-- A thread that is in no call starts one, or a thread in a call takes
its next step. -/
inductive Action where
  | write (t : Nat) (id : UInt32) (buffer : Bytes)
  | read (t : Nat) (id : UInt32)
  | remove (t : Nat) (id : UInt32)
  | step (t : Nat)

/-- A thread starts a call. -/
def start (s : SharedStore) (t : Nat) (pc : StorePc) : Option SharedStore :=
  if (s.threads t).resting then some (s.goto t s.store pc) else none

/-- One step. -/
def step (s : SharedStore) : Action → Option SharedStore
  | .write t id buffer => s.start t (.create id buffer)
  | .read t id => s.start t (.openFile id)
  | .remove t id => s.start t (.unlink id)
  | .step t => s.stepThread t

/-- A run from a store that no thread is calling. -/
def run (store : ChunkStore) (as : List Action) : Option SharedStore :=
  Machine.run step (new store) as

/-- No call is in flight. -/
def Quiescent (s : SharedStore) : Prop := ∀ u, (s.threads u).resting

/-- A thread has written the file of the chunk, and not yet listed it. -/
def Writing (s : SharedStore) (id : UInt32) : Prop :=
  ∃ u, (s.threads u).writing = some id

/-- A thread has unlinked the file of the chunk, and not yet erased it. -/
def Removing (s : SharedStore) (id : UInt32) : Prop :=
  ∃ u, (s.threads u).removing = some id

/-- The chunk that the collector would evict for the use of another. -/
def evicts (s : SharedStore) (id : UInt32) : Option UInt32 :=
  match s.store.collector.update id with
  | none => none
  | some (_, gone) => gone

/-- The step neither unlinks the file of a chunk that is being written,
nor creates the file of one that is being removed. -/
def Safe (s : SharedStore) : Action → Prop
  | .step t =>
      match s.threads t with
      | .create id _ => ¬ s.Removing id
      | .unlink id => ¬ s.Writing id
      | .writeUpdate id | .readUpdate id =>
          ∀ gone, s.evicts id = some gone → ¬ s.Writing gone
      | _ => True
  | _ => True

/-- Every step of a run is safe. -/
def AllSafe (store : ChunkStore) (as : List Action) : Prop :=
  ∀ pre a post m s, as = pre ++ a :: post →
    run store pre = some m → m.step a = some s → Safe m a

/-- The set and the files agree on a chunk, but for what is being written
or removed. -/
structure AgreesAt (s : SharedStore) (id : UInt32) : Prop where
  present : (s.store.fileOf id).isSome →
    (id ∈ s.store.inStore ∨ s.Writing id) ∧ ¬ s.Removing id
  absent : s.store.fileOf id = none →
    (id ∈ s.store.inStore → s.Removing id) ∧ ¬ s.Writing id

/-- They agree on all chunks. -/
def Agrees (s : SharedStore) : Prop := ∀ id, s.AgreesAt id

variable {s s' : SharedStore} {store : ChunkStore} {t : Nat} {q : StorePc}
  {a : Action} {id : UInt32}

-- ============================================================ one chunk

theorem threads_goto (u : Nat) :
    (s.goto t store q).threads u = if u = t then q else s.threads u :=
  Function.update_apply ..

theorem writing_goto
    (h : q.writing = some id ↔ (s.threads t).writing = some id) :
    (s.goto t store q).Writing id ↔ s.Writing id := by
  refine exists_congr fun u => ?_
  rw [threads_goto]
  by_cases hu : u = t
  · rw [if_pos hu, hu, h]
  · rw [if_neg hu]

theorem removing_goto
    (h : q.removing = some id ↔ (s.threads t).removing = some id) :
    (s.goto t store q).Removing id ↔ s.Removing id := by
  refine exists_congr fun u => ?_
  rw [threads_goto]
  by_cases hu : u = t
  · rw [if_pos hu, hu, h]
  · rw [if_neg hu]

/-- A step that leaves a chunk alone. -/
theorem agreesAt_frame (hfile : store.fileOf id = s.store.fileOf id)
    (hlisted : id ∈ store.inStore ↔ id ∈ s.store.inStore)
    (hwriting : q.writing = some id ↔ (s.threads t).writing = some id)
    (hremoving : q.removing = some id ↔ (s.threads t).removing = some id) :
    (s.goto t store q).AgreesAt id ↔ s.AgreesAt id := by
  have hw : (s.goto t store q).Writing id ↔ s.Writing id :=
    writing_goto hwriting
  have hr : (s.goto t store q).Removing id ↔ s.Removing id :=
    removing_goto hremoving
  constructor
  · intro h
    refine ⟨fun hsome => ?_, fun hnone => ?_⟩
    · rw [← hlisted, ← hw, ← hr]
      exact h.present (hfile ▸ hsome)
    · rw [← hlisted, ← hw, ← hr]
      exact h.absent (hfile.trans hnone)
  · intro h
    refine ⟨fun hsome => ?_, fun hnone => ?_⟩
    · rw [hw, hr]
      show (id ∈ store.inStore ∨ _) ∧ _
      rw [hlisted]
      exact h.present (hfile ▸ hsome)
    · rw [hw, hr]
      show (id ∈ store.inStore → _) ∧ _
      rw [hlisted]
      exact h.absent (hfile.symm.trans hnone)

/-- A step that changes one chunk keeps the agreement if it does for that
chunk. -/
theorem agrees_goto (h : Agrees s) (id : UInt32)
    (hothers : ∀ i, i ≠ id → ((s.goto t store q).AgreesAt i ↔ s.AgreesAt i)) :
    Agrees (s.goto t store q) ↔ (s.goto t store q).AgreesAt id := by
  constructor
  · exact fun h' => h' id
  · intro hid i
    by_cases hi : i = id
    · rw [hi]
      exact hid
    · exact (hothers i hi).2 (h i)

-- ============================================================== a step

/-- A step that changes no chunk. -/
theorem agrees_quiet (h : Agrees s)
    (hfile : ∀ i, store.fileOf i = s.store.fileOf i)
    (hlisted : ∀ i, i ∈ store.inStore ↔ i ∈ s.store.inStore)
    (hwriting : q.writing = (s.threads t).writing)
    (hremoving : q.removing = (s.threads t).removing) :
    Agrees (s.goto t store q) := by
  intro i
  refine (agreesAt_frame (hfile i) (hlisted i) ?_ ?_).2 (h i)
  · rw [hwriting]
  · rw [hremoving]

/-- Creating a file does harm exactly if the chunk is being removed. -/
theorem agrees_create (h : Agrees s) {buffer : Bytes}
    (hpc : s.threads t = .create id buffer) :
    Agrees (s.goto t (s.store.setFile id (some buffer)) (.writeUpdate id))
      ↔ ¬ s.Removing id := by
  generalize hq : StorePc.writeUpdate id = q
  have hremoving : (s.goto t (s.store.setFile id (some buffer)) q).Removing id
      ↔ s.Removing id := removing_goto (by
    rw [← hq, hpc]
    simp [StorePc.removing])
  rw [agrees_goto h id fun i hi => ?_]
  · constructor
    · intro hat hr
      refine (hat.present ?_).2 (hremoving.2 hr)
      show ((s.store.setFile id (some buffer)).fileOf id).isSome
      simp
    · intro hr
      refine ⟨fun _ => ⟨.inr ⟨t, ?_⟩, fun h => hr (hremoving.1 h)⟩,
        fun hnone => ?_⟩
      · rw [threads_goto, if_pos rfl, ← hq]
        rfl
      · have hnone' : (s.store.setFile id (some buffer)).fileOf id = none :=
          hnone
        simp at hnone'
  · refine agreesAt_frame ?_ Iff.rfl ?_ ?_
    · rw [ChunkStore.fileOf_setFile, if_neg hi]
    · rw [← hq, hpc]
      simp [StorePc.writing, Ne.symm hi]
    · rw [← hq, hpc]
      simp [StorePc.removing]

/-- Listing a chunk whose file was written. -/
theorem agrees_insert (h : Agrees s) (hpc : s.threads t = .insert id) :
    Agrees (s.goto t { s.store with inStore := insert id s.store.inStore }
      (.done .ok)) := by
  have hwriting : s.Writing id := ⟨t, by rw [hpc]; rfl⟩
  have hfile : (s.store.fileOf id).isSome := by
    by_contra hnone
    exact ((h id).absent (by simpa using hnone)).2 hwriting
  rw [agrees_goto h id fun i hi => ?_]
  · refine ⟨fun _ => ⟨.inl (Finset.mem_insert_self _ _), fun hr => ?_⟩,
      fun hnone => ?_⟩
    · refine ((h id).present hfile).2 ((removing_goto ?_).1 hr)
      rw [hpc]
      simp [StorePc.removing]
    · have hnone' : s.store.fileOf id = none := hnone
      rw [hnone'] at hfile
      cases hfile
  · refine agreesAt_frame rfl ?_ ?_ ?_
    · show i ∈ insert id s.store.inStore ↔ _
      rw [Finset.mem_insert, or_iff_right hi]
    · rw [hpc]
      simp [StorePc.writing, Ne.symm hi]
    · rw [hpc]
      simp [StorePc.removing]

/-- Unlinking a file does harm exactly if the chunk is being written. -/
theorem agrees_unlink (h : Agrees s) (hpc : s.threads t = .unlink id) :
    Agrees (s.goto t (s.store.setFile id none) (.erase id))
      ↔ ¬ s.Writing id := by
  have hwriting : (s.goto t (s.store.setFile id none) (.erase id)).Writing id
      ↔ s.Writing id := writing_goto (by rw [hpc]; simp [StorePc.writing])
  have hnone : (s.store.setFile id none).fileOf id = none := by simp
  rw [agrees_goto h id fun i hi => ?_]
  · constructor
    · intro hat hw
      exact (hat.absent hnone).2 (hwriting.2 hw)
    · intro hw
      refine ⟨fun hsome => ?_, fun _ => ⟨fun _ => ⟨t, ?_⟩, fun h =>
        hw (hwriting.1 h)⟩⟩
      · have hsome' : ((s.store.setFile id none).fileOf id).isSome := hsome
        rw [hnone] at hsome'
        cases hsome'
      · rw [threads_goto, if_pos rfl]
        rfl
  · refine agreesAt_frame ?_ Iff.rfl ?_ ?_
    · rw [ChunkStore.fileOf_setFile, if_neg hi]
    · rw [hpc]
      simp [StorePc.writing]
    · rw [hpc]
      simp [StorePc.removing, Ne.symm hi]

/-- Erasing a chunk whose file was unlinked. -/
theorem agrees_erase (h : Agrees s) (hpc : s.threads t = .erase id) :
    Agrees (s.goto t { s.store with inStore := s.store.inStore.erase id }
      (.done .ok)) := by
  have hremoving : s.Removing id := ⟨t, by rw [hpc]; rfl⟩
  have hfile : s.store.fileOf id = none := by
    by_contra hsome
    exact ((h id).present (Option.isSome_iff_ne_none.2 hsome)).2 hremoving
  rw [agrees_goto h id fun i hi => ?_]
  · refine ⟨fun hsome => ?_, fun _ => ⟨fun hlisted => ?_, fun hw => ?_⟩⟩
    · have hsome' : (s.store.fileOf id).isSome := hsome
      rw [hfile] at hsome'
      cases hsome'
    · exact absurd rfl (Finset.mem_erase.1 hlisted).1
    · refine ((h id).absent hfile).2 ((writing_goto ?_).1 hw)
      rw [hpc]
      simp [StorePc.writing]
  · refine agreesAt_frame rfl ?_ ?_ ?_
    · show i ∈ s.store.inStore.erase id ↔ _
      rw [Finset.mem_erase, and_iff_right hi]
    · rw [hpc]
      simp [StorePc.writing]
    · rw [hpc]
      simp [StorePc.removing, Ne.symm hi]

/-- A use of a chunk does harm exactly if the chunk it evicts is being
written. -/
theorem agrees_update (h : Agrees s)
    (htouch : s.store.touch {} id = some store)
    (hwriting : q.writing = (s.threads t).writing)
    (hremoving : q.removing = (s.threads t).removing) :
    Agrees (s.goto t store q)
      ↔ ∀ g, s.evicts id = some g → ¬ s.Writing g := by
  obtain ⟨⟨collector, gone⟩, hupdate⟩ :
      ∃ r, s.store.collector.update id = some r := by
    cases hupdate : s.store.collector.update id with
    | none =>
        rw [ChunkStore.touch, hupdate] at htouch
        cases htouch
    | some r => exact ⟨r, rfl⟩
  have hio : ({} : Io).unlinkFails = false := rfl
  obtain ⟨store', htouch', -, hevicts⟩ := ChunkStore.touch_evicts hio hupdate
  obtain rfl : store' = store := Option.some.inj (htouch'.symm.trans htouch)
  have hgone : s.evicts id = gone := by
    rw [evicts, hupdate]
  rw [hgone]
  -- a chunk that is not evicted is as before
  have hkept : ∀ i, gone ≠ some i →
      ((s.goto t store' q).AgreesAt i ↔ s.AgreesAt i) := by
    intro i hi
    refine agreesAt_frame ?_ ?_ ?_ ?_
    · rw [hevicts.fileOf, if_neg hi]
    · rw [hevicts.inStore]
      exact and_iff_left fun hgi => absurd hgi hi
    · rw [hwriting]
    · rw [hremoving]
  cases hg : gone with
  | none =>
      refine iff_of_true (fun i => ?_) (fun g hsome => by cases hsome)
      refine (hkept i ?_).2 (h i)
      rw [hg]
      exact (Option.some_ne_none i).symm
  | some g =>
      have hnone : store'.fileOf g = none := by
        rw [hevicts.fileOf, if_pos hg]
      have hw : (s.goto t store' q).Writing g ↔ s.Writing g :=
        writing_goto (by rw [hwriting])
      have hr : (s.goto t store' q).Removing g ↔ s.Removing g :=
        removing_goto (by rw [hremoving])
      rw [agrees_goto h g fun i hi => hkept i fun hgi =>
        hi (Option.some.inj (hgi.symm.trans hg))]
      constructor
      · intro hat g' hg'
        rw [← Option.some.inj hg', ← hw]
        exact (hat.absent hnone).2
      · intro hsafe
        refine ⟨fun hsome => ?_, fun _ => ⟨fun hlisted => ?_, fun hwg =>
          hsafe g rfl (hw.1 hwg)⟩⟩
        · have hsome' : (store'.fileOf g).isSome := hsome
          rw [hnone] at hsome'
          cases hsome'
        · -- a listed chunk that the eviction did not find has no file
          obtain ⟨hbefore, hmissing⟩ := (hevicts.inStore g).1 hlisted
          exact hr.2 (((h g).absent (hmissing hg)).1 hbefore)

/-- The start of a call. -/
theorem agrees_start (h : Agrees s) (hw : q.writing = none)
    (hr : q.removing = none) (hstep : s.start t q = some s') :
    Agrees s' := by
  rw [start] at hstep
  split at hstep
  · next hresting =>
      injection hstep with hstep
      rw [← hstep]
      refine agrees_quiet h (fun _ => rfl) (fun _ => Iff.rfl) ?_ ?_
      · rw [hw, StorePc.writing_of_resting hresting]
      · rw [hr, StorePc.removing_of_resting hresting]
  · cases hstep

/-- One step. -/
theorem agrees_step (h : Agrees s) (hstep : s.step a = some s') :
    Agrees s' ↔ Safe s a := by
  cases a with
  | write u id buffer => exact iff_true_intro (agrees_start h rfl rfl hstep)
  | read u id => exact iff_true_intro (agrees_start h rfl rfl hstep)
  | remove u id => exact iff_true_intro (agrees_start h rfl rfl hstep)
  | step t =>
      rw [step, stepThread] at hstep
      cases hpc : s.threads t with
      | idle =>
          simp only [hpc] at hstep
          cases hstep
      | done err =>
          simp only [hpc] at hstep
          cases hstep
      | create id buffer =>
          simp only [hpc, Option.some.injEq] at hstep
          simp only [Safe, hpc]
          rw [← hstep]
          exact agrees_create h hpc
      | insert id =>
          simp only [hpc, Option.some.injEq] at hstep
          simp only [Safe, hpc, iff_true]
          rw [← hstep]
          exact agrees_insert h hpc
      | readFile =>
          simp only [hpc, Option.some.injEq] at hstep
          simp only [Safe, hpc, iff_true]
          rw [← hstep]
          refine agrees_quiet h (fun _ => rfl) (fun _ => Iff.rfl) ?_ ?_ <;>
            rw [hpc] <;> rfl
      | erase id =>
          simp only [hpc, Option.some.injEq] at hstep
          simp only [Safe, hpc, iff_true]
          rw [← hstep]
          exact agrees_erase h hpc
      | openFile id =>
          simp only [hpc] at hstep
          simp only [Safe, hpc, iff_true]
          split at hstep <;> injection hstep with hstep <;> rw [← hstep] <;>
            refine agrees_quiet h (fun _ => rfl) (fun _ => Iff.rfl) ?_ ?_ <;>
            rw [hpc] <;> rfl
      | unlink id =>
          simp only [hpc] at hstep
          simp only [Safe, hpc]
          split at hstep
          · next hnone =>
              injection hstep with hstep
              rw [← hstep]
              refine iff_of_true (agrees_quiet h (fun _ => rfl)
                (fun _ => Iff.rfl) ?_ ?_) ((h id).absent hnone).2 <;>
                rw [hpc] <;> rfl
          · injection hstep with hstep
            rw [← hstep]
            exact agrees_unlink h hpc
      | writeUpdate id =>
          simp only [hpc] at hstep
          simp only [Safe, hpc]
          split at hstep
          · cases hstep
          · next store htouch =>
              injection hstep with hstep
              rw [← hstep]
              refine agrees_update h htouch ?_ ?_ <;> rw [hpc] <;> rfl
      | readUpdate id =>
          simp only [hpc] at hstep
          simp only [Safe, hpc]
          split at hstep
          · cases hstep
          · next store htouch =>
              injection hstep with hstep
              rw [← hstep]
              refine agrees_update h htouch ?_ ?_ <;> rw [hpc] <;> rfl

-- ================================================================ runs

/-- With no call in flight to agree is to tell the truth. -/
theorem agrees_quiescent (hq : s.Quiescent) :
    Agrees s ↔ ∀ i, i ∈ s.store.available ↔ (s.store.fileOf i).isSome := by
  have hw : ∀ i, ¬ s.Writing i := by
    rintro i ⟨u, hu⟩
    rw [StorePc.writing_of_resting (hq u)] at hu
    cases hu
  have hr : ∀ i, ¬ s.Removing i := by
    rintro i ⟨u, hu⟩
    rw [StorePc.removing_of_resting (hq u)] at hu
    cases hu
  refine forall_congr' fun i => ?_
  constructor
  · intro h
    constructor
    · intro hlisted
      by_contra hnone
      exact hr i ((h.absent (by simpa using hnone)).1 hlisted)
    · intro hsome
      exact (h.present hsome).1.resolve_right (hw i)
  · intro h
    refine ⟨fun hsome => ⟨.inl (h.2 hsome), hr i⟩, fun hnone =>
      ⟨fun hlisted => ?_, hw i⟩⟩
    have hsome := h.1 hlisted
    rw [hnone] at hsome
    cases hsome

/-- The files and the set agree in all states of a run exactly if they do
at the start and every step is safe. -/
theorem agrees_iff_safe (store : ChunkStore) (as : List Action) :
    (∀ pre post s, as = pre ++ post → run store pre = some s → Agrees s)
      ↔ Agrees (new store) ∧ AllSafe store as :=
  Machine.forall_reached_iff (fun _ _ _ h hstep => agrees_step h hstep)
    (new store) as

/-- After a run of safe steps, a store that no thread is calling lists
exactly the chunks it has files of. -/
theorem available_iff_file {as : List Action}
    (hstore : ∀ id, id ∈ store.available ↔ (store.fileOf id).isSome)
    (hsafe : AllSafe store as) (hrun : run store as = some s)
    (hq : s.Quiescent) (id : UInt32) :
    id ∈ s.store.available ↔ (s.store.fileOf id).isSome := by
  have hnew : Agrees (new store) :=
    (agrees_quiescent fun _ => rfl).2 hstore
  have hagrees : Agrees s :=
    (agrees_iff_safe store as).2 ⟨hnew, hsafe⟩ as [] s (by simp) hrun
  exact (agrees_quiescent hq).1 hagrees id

/-- Two threads that write a chunk each, step by step in turns. -/
def twoWrites : List Action :=
  [.write 0 7 [1], .write 1 8 [2], .step 0, .step 1, .step 0, .step 1,
    .step 0, .step 1]

theorem not_removing_of_two (h₀ : (s.threads 0).removing = none)
    (h₁ : (s.threads 1).removing = none)
    (h : ∀ u, (s.threads (u + 2)).removing = none) : ¬ s.Removing id := by
  rintro ⟨u, hu⟩
  match u with
  | 0 => rw [h₀] at hu; cases hu
  | 1 => rw [h₁] at hu; cases hu
  | u + 2 => rw [h u] at hu; cases hu

theorem twoWrites_safe : AllSafe (.new 2) twoWrites := by
  refine Machine.forall_steps_cons fun _ hs => ⟨trivial, ?_⟩
  cases hs
  refine Machine.forall_steps_cons fun _ hs => ⟨trivial, ?_⟩
  cases hs
  -- the files are created, and none is being removed
  refine Machine.forall_steps_cons fun _ hs =>
    ⟨not_removing_of_two rfl rfl fun _ => rfl, ?_⟩
  cases hs
  refine Machine.forall_steps_cons fun _ hs =>
    ⟨not_removing_of_two rfl rfl fun _ => rfl, ?_⟩
  cases hs
  -- the collector has room for both
  refine Machine.forall_steps_cons fun _ hs =>
    ⟨fun gone hgone => (by cases hgone), ?_⟩
  cases hs
  refine Machine.forall_steps_cons fun _ hs =>
    ⟨fun gone hgone => (by cases hgone), ?_⟩
  cases hs
  refine Machine.forall_steps_cons fun _ hs => ⟨trivial, ?_⟩
  cases hs
  refine Machine.forall_steps_cons fun _ hs => ⟨trivial, ?_⟩
  rintro (_ | ⟨b, pre⟩) a post m s has <;> cases has

theorem available_iff_file_two_writes :
    ∃ s, run (.new 2) twoWrites = some s ∧ s.Quiescent
      ∧ ∀ id, id ∈ s.store.available ↔ (s.store.fileOf id).isSome := by
  have hnew : ∀ id, id ∈ (ChunkStore.new 2).available
      ↔ ((ChunkStore.new 2).fileOf id).isSome := fun id => by
    simp [ChunkStore.new, ChunkStore.available, ChunkStore.fileOf]
  have hquiet : ∀ s, run (.new 2) twoWrites = some s → s.Quiescent := by
    intro s hs u
    rw [← Option.some.inj hs]
    rcases u with _ | _ | u <;> rfl
  exact ⟨_, rfl, hquiet _ rfl,
    available_iff_file hnew twoWrites_safe rfl (hquiet _ rfl)⟩

/-- One thread writes chunk 1 and is held up before it lists it; the other
writes chunk 2, which evicts chunk 1. -/
theorem listed_without_file :
    ∃ s, run (.new 1) [.write 0 1 [], .write 1 2 [], .step 0, .step 0,
        .step 1, .step 1, .step 1, .step 0] = some s
      ∧ s.Quiescent ∧ 1 ∈ s.store.available ∧ s.store.fileOf 1 = none := by
  refine ⟨_, rfl, fun u => ?_, Finset.mem_insert_self _ _, ?_⟩
  · simp only [threads_goto, new]
    split
    · rfl
    · split <;> rfl
  · have hio : ({} : Io).unlinkFails = false := rfl
    simp only [goto, ChunkStore.fileOf]
    exact (ChunkStore.fileOf_removeChunk hio 1).trans (if_pos rfl)

end SharedStore

end Distfs

/-
`ChunkProvider::read_chunk` by any number of threads at once
(`data/chunk_provider.{h,cc}`).

# Steps

A step is what no other thread can divide: a section under
`entries_mutex`; taking or giving back the mutex of an entry; a call into
the store or the network; a copy out of an entry; an update of the
collector up to its callback; the callback and the rest of the update.
A thread that waits for a mutex has no step.

# Entries

`entries` maps an id to an entry, and threads hold on to entries the map
no longer has (`std::shared_ptr`). So entries have an identity, and are
never used again: `next` is the next one. `fresh` says what `new char[]`
finds in the buffer of each.

# The store and the network

are parameters: `Backing` says what `compressedStore.read_chunk` does to
the entry's buffer and length, and what `client.fetch_chunk` returns. The
input `x` of a step is what is not under the provider's control.
-/
import Distfs.Data.ChunkProvider
import Distfs.Lib.Machine
import Mathlib.Logic.Function.Basic

namespace Distfs

/-- The store and the network behind a provider. -/
structure Backing (σ ι : Type) where
  readChunk : σ → ι → UInt32 → CacheEntry → ErrorCode × CacheEntry × σ
  fetchChunk : σ → ι → UInt32 → ErrorCode × σ

/-- The arguments of a `read_chunk`. -/
structure ReadCall where
  id : UInt32
  offset : Nat
  len : Nat

/-- What a thread does after its update of the collector. -/
inductive Rest where
  | copy (e : Nat)
  | reply (r : ChunkReply)

/-- Where a thread is in `read_chunk`. -/
inductive Pc where
  | idle
  | lookup (c : ReadCall)
  | wait (c : ReadCall) (e : Nat)
  | check (c : ReadCall) (e : Nat)
  | replace (c : ReadCall) (e : Nat)
  | load (c : ReadCall) (e : Nat)
  | fetch (c : ReadCall) (e : Nat)
  | reload (c : ReadCall) (e : Nat)
  | release (c : ReadCall) (e : Nat)
  | copy (c : ReadCall) (e : Nat) (hit : Bool)
  | update (c : ReadCall) (rest : Rest)
  | evict (c : ReadCall) (rest : Rest) (gone : UInt32)
  | fail (c : ReadCall) (e : Nat) (err : ErrorCode)
  | done (c : ReadCall) (r : ChunkReply)

/-- What follows the update of the collector. -/
def Rest.resume (c : ReadCall) : Rest → Pc
  | .copy e => .copy c e true
  | .reply r => .done c r

/-- Whether a thread is in no call. -/
def Pc.resting : Pc → Bool
  | .idle | .done _ _ => true
  | _ => false

theorem Pc.resting_cases {pc : Pc} (h : pc.resting) :
    pc = .idle ∨ ∃ c r, pc = .done c r := by
  cases pc with
  | idle => exact .inl rfl
  | done c r => exact .inr ⟨c, r, rfl⟩
  | _ => cases h

/-- What the error code of the first load leads to. -/
def Pc.loaded (c : ReadCall) (e : Nat) (err : ErrorCode) : Pc :=
  if err = .ok then .release c e
  else if err = .notFound then .fetch c e else .fail c e err

/-- What the error code of `client.fetch_chunk` leads to. -/
def Pc.fetched (c : ReadCall) (e : Nat) (err : ErrorCode) : Pc :=
  if err = .ok then .reload c e else .fail c e err

/-- What the error code of the load after it leads to. -/
def Pc.reloaded (c : ReadCall) (e : Nat) (err : ErrorCode) : Pc :=
  if err = .ok then .release c e else .fail c e err

/-- An entry and who holds its mutex. -/
structure Slot where
  entry : CacheEntry
  owner : Option Nat

/-- `ChunkProvider`, with its threads; `updating` holds the mutex of the
collector. -/
structure SharedProvider (σ : Type) where
  store : σ
  entries : UInt32 → Option Nat
  slot : Nat → Slot
  next : Nat
  collector : LruCollector
  updating : Option Nat
  threads : Nat → Pc

namespace SharedProvider

variable {σ ι : Type} (backing : Backing σ ι) (fresh : Nat → Mem)

/-- The constructor; no thread is in a call. -/
def new (store : σ) (cacheSize : Nat) : SharedProvider σ :=
  { store := store, entries := fun _ => none
    slot := fun e => { entry := { data := fresh e, len := 0 }, owner := none }
    next := 0, collector := .new cacheSize, updating := none
    threads := fun _ => .idle }

/-- Where a thread is next. -/
def goto (s : SharedProvider σ) (t : Nat) (pc : Pc) : SharedProvider σ :=
  { s with threads := Function.update s.threads t pc }

/-- `entries[id] = e;` and `entries.erase(id);` -/
def setEntry (s : SharedProvider σ) (id : UInt32) (e : Option Nat) :
    SharedProvider σ :=
  { s with entries := Function.update s.entries id e }

/-- An entry and the holder of its mutex. -/
def setSlot (s : SharedProvider σ) (e : Nat) (slot : Slot) :
    SharedProvider σ :=
  { s with slot := Function.update s.slot e slot }

/-- `mutex.lock()` and `mutex.unlock()` of an entry. -/
def setOwner (s : SharedProvider σ) (e : Nat) (owner : Option Nat) :
    SharedProvider σ :=
  s.setSlot e { s.slot e with owner := owner }

/-- `ent = std::make_shared<CacheEntry>(); ent->mutex.lock();
entries[id] = ent;` -/
def insertEntry (s : SharedProvider σ) (t : Nat) (id : UInt32) :
    SharedProvider σ :=
  let slot : Slot :=
    { entry := { data := fresh s.next, len := 0 }, owner := some t }
  { (s.setSlot s.next slot).setEntry id (some s.next) with
    next := s.next + 1 }

/-- The call of `compressedStore.read_chunk` with the entry's buffer;
`after` is what its error code leads to. -/
def readInto (s : SharedProvider σ) (t : Nat) (x : ι) (c : ReadCall)
    (e : Nat) (after : ErrorCode → Pc) : SharedProvider σ :=
  let r := backing.readChunk s.store x c.id (s.slot e).entry
  ({ s with store := r.2.2 }.setSlot e
    { s.slot e with entry := r.2.1 }).goto t (after r.1)

/-- The next step of a thread. -/
def stepThread (s : SharedProvider σ) (t : Nat) (x : ι) :
    Option (SharedProvider σ) :=
  match s.threads t with
  | .idle | .done _ _ => none
  | .lookup c =>
      match s.entries c.id with
      | some e => some (s.goto t (.wait c e))
      | none => some ((s.insertEntry fresh t c.id).goto t (.load c s.next))
  | .wait c e =>
      match (s.slot e).owner with
      | some _ => none
      | none => some ((s.setOwner e (some t)).goto t (.check c e))
  | .check c e =>
      if 0 < (s.slot e).entry.len then
        some ((s.setOwner e none).goto t (.update c (.copy e)))
      else some (s.goto t (.replace c e))
  | .replace c e =>
      some (((s.setOwner e none).insertEntry fresh t c.id).goto t
        (.load c s.next))
  | .load c e =>
      some (s.readInto backing t x c e (.loaded c e))
  | .fetch c e =>
      let r := backing.fetchChunk s.store x c.id
      some ({ s with store := r.2 }.goto t (.fetched c e r.1))
  | .reload c e =>
      some (s.readInto backing t x c e (.reloaded c e))
  | .release c e =>
      some ((s.setOwner e none).goto t (.copy c e false))
  | .copy c e hit =>
      let r := ChunkProvider.copyOut (s.slot e).entry c.offset c.len
      some (s.goto t (if hit then .done c r else .update c (.reply r)))
  | .update c rest =>
      match s.updating with
      | some _ => none
      | none =>
          match s.collector.update c.id with
          | none => none
          | some (collector, none) =>
              some ({ s with collector := collector }.goto t (rest.resume c))
          | some (collector, some gone) =>
              some ({ s with collector := collector, updating := some t }.goto
                t (.evict c rest gone))
  | .evict c rest gone =>
      some ({ s.setEntry gone none with updating := none }.goto t
        (rest.resume c))
  | .fail c e err =>
      some (((s.setEntry c.id none).setSlot e
        { entry := { (s.slot e).entry with len := 0 }, owner := none }).goto t
          (.done c { err := err, readSize := none, bytes := [] }))

/-- A thread that is in no call starts one, or a thread in a call takes
its next step. -/
inductive Action (ι : Type) where
  | call (t : Nat) (c : ReadCall)
  | step (t : Nat) (x : ι)

/-- One step. A call begins with the check of its range. -/
def step (s : SharedProvider σ) : Action ι → Option (SharedProvider σ)
  | .call t c =>
      if (s.threads t).resting then
        if chunkSizeBytes < uint32 (c.offset + c.len) then
          some (s.goto t (.done c
            { err := .internalError, readSize := none, bytes := [] }))
        else some (s.goto t (.lookup c))
      else none
  | .step t x => s.stepThread backing fresh t x

/-- A run of a provider that was just constructed. -/
def run (store : σ) (cacheSize : Nat) (as : List (Action ι)) :
    Option (SharedProvider σ) :=
  Machine.run (step backing fresh) (new fresh store cacheSize) as

-- ================================================= the steps, one by one

/-- What a step can do. -/
inductive Moves (s : SharedProvider σ) : Action ι → SharedProvider σ → Prop
  | refuse {t c} (hpc : (s.threads t).resting)
      (hrange : chunkSizeBytes < uint32 (c.offset + c.len)) :
      Moves s (.call t c) (s.goto t (.done c
        { err := .internalError, readSize := none, bytes := [] }))
  | start {t c} (hpc : (s.threads t).resting) :
      Moves s (.call t c) (s.goto t (.lookup c))
  | found {t x c e} (hpc : s.threads t = .lookup c)
      (hentry : s.entries c.id = some e) :
      Moves s (.step t x) (s.goto t (.wait c e))
  | missed {t x c} (hpc : s.threads t = .lookup c)
      (hentry : s.entries c.id = none) :
      Moves s (.step t x)
        ((s.insertEntry fresh t c.id).goto t (.load c s.next))
  | acquire {t x c e} (hpc : s.threads t = .wait c e)
      (hfree : (s.slot e).owner = none) :
      Moves s (.step t x) ((s.setOwner e (some t)).goto t (.check c e))
  | hit {t x c e} (hpc : s.threads t = .check c e)
      (hlen : 0 < (s.slot e).entry.len) :
      Moves s (.step t x)
        ((s.setOwner e none).goto t (.update c (.copy e)))
  | empty {t x c e} (hpc : s.threads t = .check c e)
      (hlen : (s.slot e).entry.len = 0) :
      Moves s (.step t x) (s.goto t (.replace c e))
  | replace {t x c e} (hpc : s.threads t = .replace c e) :
      Moves s (.step t x)
        (((s.setOwner e none).insertEntry fresh t c.id).goto t
          (.load c s.next))
  | load {t x c e} (hpc : s.threads t = .load c e) :
      Moves s (.step t x) (s.readInto backing t x c e (.loaded c e))
  | fetch {t x c e r} (hpc : s.threads t = .fetch c e)
      (hr : backing.fetchChunk s.store x c.id = r) :
      Moves s (.step t x)
        ({ s with store := r.2 }.goto t (.fetched c e r.1))
  | reload {t x c e} (hpc : s.threads t = .reload c e) :
      Moves s (.step t x) (s.readInto backing t x c e (.reloaded c e))
  | release {t x c e} (hpc : s.threads t = .release c e) :
      Moves s (.step t x) ((s.setOwner e none).goto t (.copy c e false))
  | copy {t x c e hit} (hpc : s.threads t = .copy c e hit) :
      Moves s (.step t x) (s.goto t
        (if hit then
          .done c (ChunkProvider.copyOut (s.slot e).entry c.offset c.len)
        else .update c (.reply
          (ChunkProvider.copyOut (s.slot e).entry c.offset c.len))))
  | update {t x c rest collector} (hpc : s.threads t = .update c rest)
      (hupdate : s.collector.update c.id = some (collector, none)) :
      Moves s (.step t x)
        ({ s with collector := collector }.goto t (rest.resume c))
  | pushOut {t x c rest collector gone} (hpc : s.threads t = .update c rest)
      (hupdate : s.collector.update c.id = some (collector, some gone)) :
      Moves s (.step t x)
        ({ s with collector := collector, updating := some t }.goto t
          (.evict c rest gone))
  | evict {t x c rest gone} (hpc : s.threads t = .evict c rest gone) :
      Moves s (.step t x)
        ({ s.setEntry gone none with updating := none }.goto t
          (rest.resume c))
  | fail {t x c e err} (hpc : s.threads t = .fail c e err) :
      Moves s (.step t x) (((s.setEntry c.id none).setSlot e
        { entry := { (s.slot e).entry with len := 0 }, owner := none }).goto t
          (.done c { err := err, readSize := none, bytes := [] }))

variable {backing fresh}

theorem moves_of_step {s s' : SharedProvider σ} {a : Action ι}
    (h : step backing fresh s a = some s') :
    Moves backing fresh s a s' := by
  cases a with
  | call t c =>
      rw [step] at h
      split at h
      · next hpc =>
        split at h
        · next hrange =>
          cases h
          exact .refuse hpc hrange
        · cases h
          exact .start hpc
      · cases h
  | step t x =>
      rw [step, stepThread] at h
      split at h
      · cases h
      · cases h
      · next c hpc =>
        split at h
        · next e hentry =>
          cases h
          exact .found hpc hentry
        · next hentry =>
          cases h
          exact .missed hpc hentry
      · next c e hpc =>
        split at h
        · cases h
        · next hfree =>
          cases h
          exact .acquire hpc hfree
      · next c e hpc =>
        split at h
        · next hlen =>
          cases h
          exact .hit hpc hlen
        · next hlen =>
          cases h
          exact .empty hpc (by omega)
      · next c e hpc =>
        cases h
        exact .replace hpc
      · next c e hpc =>
        cases h
        exact .load hpc
      · next c e hpc =>
        cases h
        exact .fetch hpc rfl
      · next c e hpc =>
        cases h
        exact .reload hpc
      · next c e hpc =>
        cases h
        exact .release hpc
      · next c e hit hpc =>
        cases h
        exact .copy hpc
      · next c rest hpc =>
        split at h
        · cases h
        · split at h
          · cases h
          · next hupdate =>
            cases h
            exact .update hpc hupdate
          · next hupdate =>
            cases h
            exact .pushOut hpc hupdate
      · next c rest gone hpc =>
        cases h
        exact .evict hpc
      · next c e err hpc =>
        cases h
        exact .fail hpc

end SharedProvider

end Distfs

/-
`DataProvider::read` by any number of threads at once.

`run_fuse` lets FUSE call `distfs_read` from several threads, and these
share the one `ChunkProvider`. Each thread is somewhere in the loop of its
own read; in between, or within a `read_chunk`, the others go on. The
provider is the machine of `SharedProvider`, of which a thread in its loop
takes the steps (`step`).

What a loop has copied is the front of what it was asked for (`Copied`),
and a turn whose call delivers keeps that.
-/
import Distfs.Data.CacheRuns
import Distfs.Data.FlatRead

namespace Distfs

open SharedProvider

/-- `DataProvider::read` under way: what it was asked for, its local
variables, and what was copied. -/
structure ReadLoop where
  offset : Nat
  size : Nat
  id : UInt32
  of : DataProvider.Offset
  length : Nat
  bytes : Bytes

namespace ReadLoop

/-- The start of `read`. -/
def start (offset size : Nat) : ReadLoop :=
  { offset := offset
    size := size
    id := UInt32.ofNat (offset / chunkSizeBytes)
    of := ⟨offset % chunkSizeBytes, Nat.mod_lt _ chunkSizeBytes_pos⟩
    length := size
    bytes := [] }

/-- `len`. -/
def len (r : ReadLoop) : Nat := min r.length (chunkSizeBytes - r.of.1)

/-- The call of `read_chunk`. -/
def call (r : ReadLoop) : ReadCall := ⟨r.id, r.of.1, r.len⟩

/-- The end of a turn of the loop. -/
def advance (r : ReadLoop) (bytes : Bytes) : ReadLoop :=
  { r with
    id := r.id + 1
    of := ⟨0, chunkSizeBytes_pos⟩
    length := r.length - r.len
    bytes := r.bytes ++ bytes }

end ReadLoop

/-- Where a thread is in its reads. -/
inductive Reader where
  | idle
  /-- at the head of the loop -/
  | turn (r : ReadLoop)
  /-- in `read_chunk` -/
  | calling (r : ReadLoop)
  | finished (offset size : Nat) (err : ErrorCode) (bytes : Bytes)

/-- The provider, and the reads of its threads. -/
structure SharedReads (σ : Type) where
  provider : SharedProvider σ
  readers : Nat → Reader

namespace SharedReads

variable {σ ι : Type} (backing : Backing σ ι) (fresh : Nat → Mem)

/-- What can happen next. `unset` is what `read_size` holds if
`read_chunk` does not set it. -/
inductive Action (ι : Type) where
  | read (t offset size : Nat)
  | turn (t : Nat)
  | step (t : Nat) (x : ι)
  | reply (t unset : Nat)

/-- Where a thread is next. -/
def goto (s : SharedReads σ) (t : Nat) (r : Reader) : SharedReads σ :=
  { s with readers := Function.update s.readers t r }

/-- What the loop makes of the reply of `read_chunk`. -/
def handle (r : ReadLoop) (unset : Nat) (reply : ChunkReply) : Reader :=
  if reply.readSize.getD unset ≠ r.len then
    .finished r.offset r.size .internalError (r.bytes ++ reply.bytes)
  else if reply.err ≠ .ok then
    .finished r.offset r.size reply.err (r.bytes ++ reply.bytes)
  else .turn (r.advance reply.bytes)

/-- One step of a thread. -/
def step (s : SharedReads σ) : Action ι → Option (SharedReads σ)
  | .read t offset size =>
      match s.readers t with
      | .idle | .finished _ _ _ _ =>
          some (s.goto t (.turn (.start offset size)))
      | _ => none
  | .turn t =>
      match s.readers t with
      | .turn r =>
          if 0 < r.length then
            match SharedProvider.step backing fresh s.provider
                (.call t r.call) with
            | none => none
            | some p => some ({ s with provider := p }.goto t (.calling r))
          else some (s.goto t (.finished r.offset r.size .ok r.bytes))
      | _ => none
  | .step t x =>
      match s.readers t with
      | .calling _ =>
          match SharedProvider.step backing fresh s.provider (.step t x) with
          | none => none
          | some p => some { s with provider := p }
      | _ => none
  | .reply t unset =>
      match s.readers t, s.provider.threads t with
      | .calling r, .done _ reply => some (s.goto t (handle r unset reply))
      | _, _ => none

/-- A provider that was just constructed, and no read. -/
def new (store : σ) (cacheSize : Nat) : SharedReads σ :=
  { provider := .new fresh store cacheSize, readers := fun _ => .idle }

/-- The error that the last load of each thread met. -/
def failure (s : SharedReads σ) (f : Nat → Option ErrorCode) :
    Action ι → Nat → Option ErrorCode
  | .read _ _ _ | .reply _ _ => f
  | .turn t =>
      match s.readers t with
      | .turn r =>
          if 0 < r.length then
            SharedProvider.failure backing s.provider f (.call t r.call)
          else f
      | _ => f
  | .step t x => SharedProvider.failure backing s.provider f (.step t x)

/-- A run, with `failure` as a history variable. -/
def runNoting (store : σ) (cacheSize : Nat) (as : List (Action ι)) :
    Option (SharedReads σ × (Nat → Option ErrorCode)) :=
  Machine.run (Machine.noted (step backing fresh) (failure backing))
    (new fresh store cacheSize, fun _ => none) as

end SharedReads

-- ======================================================== one thread

/-- The bytes at the flat addresses from `a` on. -/
def flatBytes (content : UInt32 → Bytes) (a n : Nat) : Bytes :=
  (DataProvider.addressSpace fun id => some (content id)).read a n

section Loop

variable {content : UInt32 → Bytes} {r : ReadLoop} {a n : Nat}

theorem length_flatBytes : (flatBytes content a n).length = n :=
  Mem.length_read _ _ _

/-- Up to the end of a chunk the flat bytes are a slice of it. -/
theorem flatBytes_slice (hlen : ∀ id, (content id).length = chunkSizeBytes)
    (hfit : a % chunkSizeBytes + n ≤ chunkSizeBytes) :
    flatBytes content a n
      = ((content (UInt32.ofNat (a / chunkSizeBytes))).drop
          (a % chunkSizeBytes)).take n := by
  have hcovers : DataProvider.Covers (fun id => some (content id)) a
      (flatBytes content a n) := by
    intro i hi
    refine ⟨_, rfl, ?_⟩
    have hmod : (a + i) % chunkSizeBytes
        < (content (UInt32.ofNat ((a + i) / chunkSizeBytes))).length := by
      rw [hlen]
      exact Nat.mod_lt _ chunkSizeBytes_pos
    rw [length_flatBytes] at hi
    rw [List.getElem?_eq_getElem hmod]
    unfold flatBytes
    rw [Mem.getElem?_read hi, DataProvider.addressSpace]
    simp only
    rw [List.getD_eq_getElem _ _ hmod]
  rcases Nat.eq_zero_or_pos n with rfl | hpos
  · rfl
  · obtain ⟨c, hc, hslice⟩ := hcovers.slice (n := n)
      (by rw [length_flatBytes]; exact hpos) (by rw [length_flatBytes])
      hfit (fun id c hc => by rw [← Option.some.inj hc]; exact hlen id)
    rw [Option.some.inj hc, hslice, List.take_of_length_le
      (Nat.le_of_eq length_flatBytes)]

/-- The address of the next byte. -/
def ReadLoop.next (r : ReadLoop) : Nat := r.offset + (r.size - r.length)

/-- What was copied is the front of what was asked for, and the loop is at
the address behind it. -/
structure Copied (content : UInt32 → Bytes) (r : ReadLoop) : Prop where
  le : r.length ≤ r.size
  bytes : r.bytes = flatBytes content r.offset (r.size - r.length)
  id : 0 < r.length → r.id = UInt32.ofNat (r.next / chunkSizeBytes)
  of : 0 < r.length → r.of.1 = r.next % chunkSizeBytes

theorem copied_start (offset size : Nat) :
    Copied content (.start offset size) := by
  have hnext : (ReadLoop.start offset size).next = offset := by
    show offset + (size - size) = offset
    omega
  refine ⟨Nat.le_refl _, ?_, fun _ => ?_, fun _ => ?_⟩
  · show [] = flatBytes content offset (size - size)
    rw [Nat.sub_self]
    rfl
  · rw [hnext]
    rfl
  · rw [hnext]
    rfl

theorem inChunk_call (r : ReadLoop) : InChunk r.call := by
  have := r.of.2
  show r.of.1 + min r.length (chunkSizeBytes - r.of.1) ≤ chunkSizeBytes
  omega

/-- A turn whose call delivers its slice. -/
theorem Copied.advance (h : Copied content r) (hpos : 0 < r.length)
    (hlen : ∀ id, (content id).length = chunkSizeBytes) :
    Copied content (r.advance (slice content r.call).bytes) := by
  have hof := h.of hpos
  have hid := h.id hpos
  have hle := h.le
  have hmod := r.of.2
  have hmin : r.len ≤ r.length := Nat.min_le_left _ _
  have hdone : r.size - (r.length - r.len) = r.size - r.length + r.len := by
    omega
  have hslice : (slice content r.call).bytes
      = flatBytes content r.next r.len := by
    have hfit := inChunk_call r
    rw [flatBytes_slice hlen (by rw [← hof]; exact hfit), ← hid, ← hof]
    rfl
  have hnext : (r.advance (slice content r.call).bytes).next
      = r.next + r.len := by
    show r.offset + (r.size - (r.length - r.len)) = r.next + r.len
    rw [hdone, ReadLoop.next, Nat.add_assoc]
  -- if there is more to read, the call went to the end of its chunk
  have hboundary : 0 < r.length - r.len →
      (r.next + r.len) / chunkSizeBytes = r.next / chunkSizeBytes + 1
        ∧ (r.next + r.len) % chunkSizeBytes = 0 := by
    intro hmore
    have hrest : r.len = chunkSizeBytes - r.next % chunkSizeBytes := by
      rw [← hof]
      exact Nat.min_eq_right (by rw [ReadLoop.len] at hmore; omega)
    rw [hrest]
    exact DataProvider.next_chunk
  refine ⟨Nat.le_trans (Nat.sub_le _ _) hle, ?_, fun hmore => ?_,
    fun hmore => ?_⟩
  · show r.bytes ++ _
      = flatBytes content r.offset (r.size - (r.length - r.len))
    rw [hdone, hslice, h.bytes, flatBytes, flatBytes, flatBytes, Mem.read_add]
    rfl
  · rw [hnext, (hboundary hmore).1, UInt32.ofNat_add, ← hid]
    rfl
  · rw [hnext, (hboundary hmore).2]
    rfl

end Loop

end Distfs

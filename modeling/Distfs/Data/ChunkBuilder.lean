/-
`data/chunk_builder.{h,cc}`: writing a stream of bytes as chunks, with
seeking back.

One chunk is in memory, the rest in the store. A call answers `none`
where the code has undefined behaviour, which its own text has in one
place: a `read` that fails with nothing read in its round makes
`add_file` write `2 ^ 32 - 1` bytes of a buffer of 4 MB. `read_buffer`
is not modelled: what is written of it is what was read in the round.
-/
import Distfs.Data.ChunkOps
import Distfs.Lib.Transfer
import Mathlib.Data.Finset.Sort

namespace Distfs

open Transfer

/-- What `open` finds under the path of a source file. -/
inductive SourceFile where
  | notFound
  | denied
  | opened (fd : Fd)

/-- `ChunkBuilder`. -/
structure ChunkBuilder (σ : Type) where
  store : σ
  built : Bool
  pos : Nat
  buff : Mem
  chunkNum : UInt32

/-- What a call hands back: the error code, and what it puts into its
`offset` and `length` arguments (zero where it has none). -/
structure Reply where
  err : ErrorCode
  offset : Nat
  length : Nat
  deriving DecidableEq

namespace ChunkBuilder

variable {σ : Type} (ops : ChunkOps σ)

/-- The constructor; `buff` is what `new char[CHUNK_SIZE_BYTES]` finds
in memory. -/
def new (store : σ) (buff : Mem) : ChunkBuilder σ :=
  { store := store, built := false, pos := 0, buff := buff, chunkNum := 0 }

/-- `move_pos`. -/
def movePos (b : ChunkBuilder σ) (newOffset : Nat) :
    Option (ErrorCode × ChunkBuilder σ) :=
  if newOffset / chunkSizeBytes ≠ b.chunkNum.toNat then
    match ops.writeChunk b.store b.chunkNum
        (b.buff.read 0 chunkSizeBytes) with
    | none => none
    | some (err, store) =>
        if err ≠ .ok then some (err, { b with store := store })
        else
          let chunkNum := UInt32.ofNat (newOffset / chunkSizeBytes)
          if chunkNum ∈ ops.available store then
            match ops.readChunk store chunkNum with
            | none => none
            | some (.error err, store) =>
                some (err, { b with store := store, chunkNum := chunkNum })
            | some (.ok x, store) =>
                some (.ok, { b with
                  store := store
                  chunkNum := chunkNum
                  buff := b.buff.write 0 x
                  pos := newOffset })
          else
            some (.ok, { b with
              store := store, chunkNum := chunkNum, pos := newOffset })
  else some (.ok, { b with pos := newOffset })

/-- `write_data`. -/
def writeData (b : ChunkBuilder σ) (data : Bytes) :
    Option (ErrorCode × ChunkBuilder σ) :=
  if _h : 0 < data.length then
    let curr := b.pos % chunkSizeBytes
    let next := min (chunkSizeBytes - curr) data.length
    let pos := usize (b.pos + next)
    match movePos ops { b with
        buff := b.buff.write curr (data.take next), pos := pos } pos with
    | none => none
    | some (err, b') =>
        if err ≠ .ok then some (err, b')
        else writeData b' (data.drop next)
  else some (.ok, b)
termination_by data.length
decreasing_by
  have := Nat.mod_lt b.pos chunkSizeBytes_pos
  rw [List.length_drop]
  omega

/-- The loop of `add_file`: read a chunk's worth, write it, until a read
ends the file or fails. -/
def fileLoop (b : ChunkBuilder σ) (fd : Fd) (length : Nat) :
    Option (ErrorCode × Nat × ChunkBuilder σ) :=
  let r := readLoop fd chunkSizeBytes
  if _h : r.failed = true then
    -- the failed call has been counted as minus one byte
    let length := usize (length + r.got.length + (2 ^ 64 - 1))
    if r.got = [] then none
    else
      match writeData ops b r.got.dropLast with
      | none => none
      | some (err, b) =>
          if err ≠ .ok then some (err, length, b)
          else some (.accessDenied, length, b)
  else
    let length := usize (length + r.got.length)
    match writeData ops b r.got with
    | none => none
    | some (err, b) =>
        if err ≠ .ok then some (err, length, b)
        else if _h : r.atEnd = true then some (.ok, length, b)
        else fileLoop b r.fd length
termination_by fd.rest.length
decreasing_by
  have hrest := readLoop_rest fd chunkSizeBytes
  have hgot := hrest.2 (by simpa using ‹¬ r.failed = true›)
    (by simpa using ‹¬ r.atEnd = true›)
  have hless : (readLoop fd chunkSizeBytes).fd.rest.length
      < fd.rest.length := by omega
  exact hless

/-- `add_file`. -/
def addFile (b : ChunkBuilder σ) (source : SourceFile) :
    Option (Reply × ChunkBuilder σ) :=
  match source with
  | .notFound => some ({ err := .notFound, offset := 0, length := 0 }, b)
  | .denied => some ({ err := .accessDenied, offset := 0, length := 0 }, b)
  | .opened fd =>
      match fileLoop ops b fd 0 with
      | none => none
      | some (err, length, b') =>
          some ({ err := err
                  offset := if err = .ok then b.pos else 0
                  length := length }, b')

/-- `reserve`. -/
def reserve (b : ChunkBuilder σ) (length : Nat) :
    Option (Reply × ChunkBuilder σ) :=
  match movePos ops b (usize (b.pos + length)) with
  | none => none
  | some (err, b') => some ({ err := err, offset := b.pos, length := 0 }, b')

/-- `write`. -/
def write (b : ChunkBuilder σ) (offset : Nat) (data : Bytes) :
    Option (Reply × ChunkBuilder σ) :=
  match movePos ops b offset with
  | none => none
  | some (err, b) =>
      if err ≠ .ok then
        some ({ err := err, offset := 0, length := 0 }, b)
      else
        match writeData ops b data with
        | none => none
        | some (err, b) =>
            some ({ err := err, offset := 0, length := 0 }, b)

/-- `build`. -/
def build (b : ChunkBuilder σ) : Option (ErrorCode × ChunkBuilder σ) :=
  match ops.writeChunk b.store b.chunkNum (b.buff.read 0 chunkSizeBytes) with
  | none => none
  | some (err, store) =>
      some (err, { b with
        store := store, built := b.built || decide (err = .ok) })

/-- A call of the public interface, `build` aside. -/
inductive Request where
  | addFile (source : SourceFile)
  | reserve (length : Nat)
  | write (offset : Nat) (data : Bytes)

/-- Serve one call. -/
def serve (b : ChunkBuilder σ) : Request → Option (Reply × ChunkBuilder σ)
  | .addFile source => addFile ops b source
  | .reserve length => reserve ops b length
  | .write offset data => write ops b offset data

/-- Serve a sequence of calls. -/
def serveAll (b : ChunkBuilder σ) :
    List Request → Option (List Reply × ChunkBuilder σ)
  | [] => some ([], b)
  | r :: rs =>
      match serve ops b r with
      | none => none
      | some (reply, b) =>
          match serveAll b rs with
          | none => none
          | some (replies, b) => some (reply :: replies, b)

/-- A call of the public interface. -/
inductive Operation where
  | request (r : Request)
  | build

/-- Perform one call. -/
def perform (b : ChunkBuilder σ) :
    Operation → Option (ErrorCode × ChunkBuilder σ)
  | .request r =>
      match serve ops b r with
      | none => none
      | some (reply, b) => some (reply.err, b)
  | .build => build ops b

/-- Perform a sequence of calls; the log has the error code of each. -/
def performAll (b : ChunkBuilder σ) :
    List Operation → Option (List (Operation × ErrorCode) × ChunkBuilder σ)
  | [] => some ([], b)
  | c :: cs =>
      match perform ops b c with
      | none => none
      | some (err, b) =>
          match performAll b cs with
          | none => none
          | some (log, b) => some ((c, err) :: log, b)

/-- The ids in the order of a `std::set`. -/
def inOrder (ids : Finset UInt32) : List UInt32 :=
  ((ids.image UInt32.toNat).sort (· ≤ ·)).map UInt32.ofNat

/-- The loop of the destructor, with the error codes of the removals. -/
def removeAll (s : σ) : List UInt32 → List ErrorCode × σ
  | [] => ([], s)
  | id :: ids =>
      let (err, s) := ops.removeChunk s id
      let (errs, s) := removeAll s ids
      (err :: errs, s)

/-- The destructor: without a `build` that succeeded it removes what the
store lists. It does not look at the error codes. -/
def destroy (b : ChunkBuilder σ) : List ErrorCode × σ :=
  if b.built then ([], b.store)
  else removeAll ops b.store (inOrder (ops.available b.store))

end ChunkBuilder

end Distfs

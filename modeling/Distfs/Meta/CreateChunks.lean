/-
`MetaFSBuilder::create_chunks` and `build` (`meta/metafs_builder.cc`).

`openAt` says what `open` finds under a path. An access outside the
image buffer is undefined, which is `none`, as is a queue that is not
empty after `fuel` turns. Two errors are ignored by the code: that of
the last `write`, and that of `ChunkBuilder::build`.

`build` drops its buffer when it returns. The model keeps what was in it
when `create_chunks` ended, to speak about the image.
-/
import Distfs.Data.ChunkBuilder
import Distfs.Meta.MetafsBuilder

namespace Distfs

/-- The result of `build`: the error code, the image and its length
(`current_pos`), and the chunk builder. -/
structure Built (σ : Type) where
  err : ErrorCode
  data : Mem
  size : Nat
  chunks : ChunkBuilder σ

namespace MetaFSBuilder

/-- `std::string(data + a)` in a buffer of `size` bytes. -/
def stringAt (m : Mem) (size a : Nat) : Option Bytes :=
  let s := (m.read a (size - a)).takeWhile (· ≠ 0)
  if s.length < size - a then some s else none

/-- The loop over the entries of a directory: what is queued for `k` of
them, from index `i` on. -/
def queueEntries (m : Mem) (size dirents : Nat) (path : Bytes) :
    Nat → Nat → Option (List (Nat × Bytes))
  | 0, _ => some []
  | k + 1, i =>
      if dirents + entrySize * (i + 1) ≤ size then
        match stringAt m size (Entry.nameOffset m dirents i) with
        | none => none
        | some name =>
            match queueEntries m size dirents path k (i + 1) with
            | none => none
            | some q =>
                some ((Entry.dataOffset m dirents i, path ++ 47 :: name) :: q)
      else none

/-- Store `data_offset` and `length` of the node at `n`. -/
def setFile (m : Mem) (n offset length : Nat) : Mem :=
  Node.setLength (Node.setDataOffset m n offset) n length

variable {σ : Type} (ops : ChunkOps σ) (openAt : Bytes → SourceFile)

/-- The loop of `create_chunks` over its queue. -/
def createLoop (size : Nat) :
    Nat → List (Nat × Bytes) → Mem → ChunkBuilder σ →
      Option (ErrorCode × Mem × ChunkBuilder σ)
  | _, [], m, chunks => some (.ok, m, chunks)
  | 0, _ :: _, _, _ => none
  | fuel + 1, (n, path) :: q, m, chunks =>
      if size < n + nodeSize then none
      else if sIsReg (Node.mode m n) then
        match chunks.addFile ops (openAt path) with
        | none => none
        | some (reply, chunks) =>
            if reply.err = .ok then
              createLoop size fuel q
                (setFile m n reply.offset reply.length) chunks
            else
              let m := setFile m n (2 ^ 64 - 1) 0
              if reply.err = .notFound ∨ reply.err = .accessDenied then
                createLoop size fuel q m chunks
              else some (reply.err, m, chunks)
      else if sIsDir (Node.mode m n) then
        match queueEntries m size (Node.dataOffset m n) path
            (Node.length m n) 0 with
        | none => none
        | some children => createLoop size fuel (q ++ children) m chunks
      else createLoop size fuel q m chunks

/-- `create_chunks`. -/
def createChunks (fuel : Nat) (b : MetaFSBuilder) (root : Bytes)
    (chunks : ChunkBuilder σ) :
    Option (ErrorCode × Mem × ChunkBuilder σ) :=
  match chunks.reserve ops b.currentPos with
  | none => none
  | some (reply, chunks) =>
      if reply.err ≠ .ok then some (reply.err, b.data, chunks)
      else
        match createLoop ops openAt b.dataSize.1 fuel [(usizeSize, root)]
            b.data chunks with
        | none => none
        | some (err, m, chunks) =>
            if err ≠ .ok then some (err, m, chunks)
            else
              match chunks.write ops reply.offset
                  (m.read 0 b.currentPos) with
              | none => none
              | some (_, chunks) => some (.ok, m, chunks)

/-- `build`. -/
def build (fuel : Nat) (heap : Nat → Mem) (root : Bytes) (t : SourceTree)
    (chunks : ChunkBuilder σ) : Option (Built σ) :=
  match scanDfs heap t (start heap) with
  | none => none
  | some (b, _) =>
      let b := { b with data := b.data.writeLe 0 usizeSize b.currentPos }
      match createChunks ops openAt fuel b root chunks with
      | none => none
      | some (err, m, chunks) =>
          if err ≠ .ok then
            some { err := err, data := m, size := b.currentPos
                   chunks := chunks }
          else
            match chunks.build ops with
            | none => none
            | some (_, chunks) =>
                some { err := err, data := m, size := b.currentPos
                       chunks := chunks }

end MetaFSBuilder

end Distfs

/-
The callbacks that the mounted file system registers with FUSE
(`fuse/fuse_main.cc`).

`mfs` is its image. What a callback writes into a buffer of FUSE is the
list of the stores made there. `dp` is what `dp->read` does at an
address, for a length, in the state of the data provider: the error code
and the bytes copied to the buffer; `none` is undefined behaviour.
`filler` is FUSE's function that puts an entry into the buffer of a
directory, whose state it changes; it says `true` when the buffer is
full.
-/
import Distfs.Meta.MetaFileSystem

namespace Distfs

/-- `EACCES`. -/
def eacces : Int := 13

/-- `ENOENT`. -/
def enoent : Int := 2

/-- `ENOTDIR`. -/
def enotdir : Int := 20

/-- `EINVAL`. -/
def einval : Int := 22

/-- `ERANGE`. -/
def erange : Int := 34

/-- `ENODATA`. -/
def enodata : Int := 61

/-- `O_WRONLY | O_RDWR`. -/
def oWrite : Nat := 3

namespace Fuse

/-- `distfs_getattr`: the answer, and the stat if it is filled in. -/
def distfsGetattr (mfs : Mem) (path : Bytes) :
    Option (Int × Option StatReply) :=
  match MetaFileSystem.getPathStat mfs path with
  | none => none
  | some (.ok, st) => some (0, st)
  | some (_, st) => some (-enoent, st)

/-- `distfs_readlink`. -/
def distfsReadlink (mfs : Mem) (path : Bytes) (buffSize : Nat) :
    Option (Int × List Mem.Store) :=
  match MetaFileSystem.getSymlink mfs path buffSize with
  | none => none
  | some (.ok, buff) => some (0, buff)
  | some (.tooLong, buff) => some (0, buff)
  | some (.badType, buff) => some (-einval, buff)
  | some (_, buff) => some (-enoent, buff)

/-- The answer of a call on extended attributes that went well; a length
that is not set is undefined behaviour. -/
def lengthAnswer (r : MetaFileSystem.XattrReply) :
    Option (Int × List Mem.Store) :=
  match r.length with
  | none => none
  | some len => some (toInt32 (uint32 (toUint64 len)), r.stores)

/-- `distfs_getxattr`. -/
def distfsGetxattr (mfs : Mem) (path name : Bytes) (size : Nat) :
    Option (Int × List Mem.Store) :=
  match MetaFileSystem.getXattr mfs path name size with
  | none => none
  | some r =>
      match r.err with
      | .ok => lengthAnswer r
      | .tooLong => some (-erange, r.stores)
      | .noData => some (-enodata, r.stores)
      | _ => some (-enoent, r.stores)

/-- `distfs_listattr`. -/
def distfsListattr (mfs : Mem) (path : Bytes) (size : Nat) :
    Option (Int × List Mem.Store) :=
  match MetaFileSystem.listXattr mfs path size with
  | none => none
  | some r =>
      match r.err with
      | .ok => lengthAnswer r
      | .tooLong => some (-erange, r.stores)
      | _ => some (-enoent, r.stores)

/-- `distfs_open`: the answer, and the handle if it is set. It is set
with every error code. -/
def distfsOpen (mfs : Mem) (path : Bytes) (flags : Nat) :
    Option (Int × Option Nat) :=
  if flags &&& oWrite ≠ 0 then some (-1, none)
  else
    match MetaFileSystem.getOffset mfs path with
    | none => none
    | some (.ok, off) => some (0, some off)
    | some (_, off) => some (-enoent, some off)

/-- `distfs_read`; `fh` is the handle in `fi`. The length is computed in
`usize`, and the answer is an `int`. -/
def distfsRead {τ : Type} (dp : τ → Nat → Nat → Option (ErrorCode × Bytes × τ))
    (s : τ) (mfs : Mem) (fh size : Nat) (offset : Int) :
    Option (Int × Bytes × τ) :=
  match MetaFileSystem.getFilePosition mfs fh with
  | .error _ => some (-eacces, [], s)
  | .ok (off, len) =>
      let n := min (usize (len + (2 ^ 64 - toUint64 offset))) size
      match dp s (usize (off + toUint64 offset)) n with
      | none => none
      | some (.ok, bytes, s) => some (toInt32 (uint32 n), bytes, s)
      | some (_, bytes, s) => some (-eacces, bytes, s)

/-- The callback of `distfs_readdir`. It holds `offset` by reference and
counts it up before each call of `filler`. -/
def dirReader {φ : Type}
    (filler : φ → Nat → StatReply → Int → Bool × φ) (s : φ × Int)
    (name : Nat) (st : StatReply) : Bool × φ × Int :=
  let offset := s.2 + 1
  let r := filler s.1 name st offset
  (r.1, r.2, offset)

/-- `distfs_readdir`. -/
def distfsReaddir {φ : Type} (mfs : Mem) (path : Bytes)
    (filler : φ → Nat → StatReply → Int → Bool × φ) (s : φ) (offset : Int) :
    Option (Int × φ) :=
  match MetaFileSystem.getDir mfs path (uint32 (toUint64 offset))
      (dirReader filler) (s, offset) with
  | none => none
  | some (.ok, s, _) => some (0, s)
  | some (.badType, s, _) => some (-enotdir, s)
  | some (_, s, _) => some (-enoent, s)

end Fuse

end Distfs

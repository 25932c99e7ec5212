/-
Reading the metadata image (`meta/meta_file_system.{h,cc}`): path lookup,
directory listing, stat, and where a file's bytes are.

An answer `none` is undefined behaviour, which path lookup has in one
place: the sum of the two `int` indices of the binary search overflows.
The other one is a string of the image that no NUL ends. The walk along
a path takes the C string `path` as its bytes; names in the image are
passed on as pointers, as in the code. What goes to a buffer of the
caller is the list of the stores made there.

`load` is the constructor that reads the image from the chunks. `new
char[]` finds `fresh`, and throws when asked for more than there can be,
which is `none`.
-/
import Distfs.Data.DataProvider
import Distfs.Lib.BinarySearch
import Distfs.Lib.CString
import Distfs.Meta.Types

namespace Distfs

/-- The conversion of an unsigned 64-bit number to a signed one. -/
def toInt64 (n : Nat) : Int :=
  if n < 2 ^ 63 then (n : Int) else (n : Int) - 2 ^ 64

/-- The conversion of a `uint32_t` to `int`. -/
def toInt32 (n : Nat) : Int :=
  if n < 2 ^ 31 then (n : Int) else (n : Int) - 2 ^ 32

/-- `INT_MAX`. -/
def intMax : Int := 2 ^ 31 - 1

/-- The `struct stat` handed out; times as seconds and nanoseconds. -/
structure StatReply where
  mode : Nat
  nlink : Nat
  uid : Nat
  gid : Nat
  size : Int
  blocks : Int
  atime : Nat × Nat
  mtime : Nat × Nat
  ctime : Nat × Nat
  deriving DecidableEq

namespace MetaFileSystem

/-- `get_stat` of the node at `offset`; `mtime` serves as `atime`. -/
def getStat (m : Mem) (offset : Nat) : StatReply :=
  { mode := Node.mode m offset
    nlink := if sIsDir (Node.mode m offset) then 2 else 1
    uid := Node.uid m offset
    gid := Node.gid m offset
    size := toInt64 (Node.size m offset)
    blocks := toInt64 (Node.blockCount m offset)
    atime := (Node.mtimeNs m offset / 1000000000,
      Node.mtimeNs m offset % 1000000000)
    mtime := (Node.mtimeNs m offset / 1000000000,
      Node.mtimeNs m offset % 1000000000)
    ctime := (Node.ctimeNs m offset / 1000000000,
      Node.ctimeNs m offset % 1000000000) }

/-- `find_entity`: the `data_offset` of the entry with the name, zero if
there is none. -/
def findEntity (m : Mem) (name : Bytes) (ents entsSize : Nat) : Option Nat :=
  if entsSize = 0 then some 0
  else
    match BinarySearch.find
        (fun i => m.strcmp (Entry.nameOffset m ents i) name) intMax 0
        (toInt32 (entsSize - 1)) with
    | none => none
    | some none => some 0
    | some (some i) => some (Entry.dataOffset m ents i)

/-- `get_child`. It looks for the entries right behind the node. -/
def getChild (m : Mem) (offset : Nat) (name : Bytes) : Option Nat :=
  if sIsDir (Node.mode m offset) = false then some 0
  else findEntity m name (offset + nodeSize) (uint32 (Node.length m offset))

/-- The loop of `get_node_offset`, and the component it ends with. -/
def walk (m : Mem) : Bytes → Nat → Bytes → Option (ErrorCode × Nat)
  | [], offset, name =>
      if name ≠ [] then
        match getChild m offset name with
        | none => none
        | some n => if n = 0 then some (.notFound, 0) else some (.ok, n)
      else some (.ok, offset)
  | c :: path, offset, name =>
      if c = 47 then
        match getChild m offset name with
        | none => none
        | some n => if n = 0 then some (.notFound, 0) else walk m path n []
      else walk m path offset (name ++ [c])

/-- `get_node_offset`; a path without a leading slash throws. -/
def getNodeOffset (m : Mem) (path : Bytes) : Option (ErrorCode × Nat) :=
  match path with
  | [] => none
  | c :: path => if c = 47 then walk m path usizeSize [] else none

/-- `get_offset`; the offset is handed out with every error code. -/
def getOffset (m : Mem) (path : Bytes) : Option (ErrorCode × Nat) :=
  getNodeOffset m path

/-- `get_stat` of a path: the error code, and the stat if it is set. -/
def getPathStat (m : Mem) (path : Bytes) :
    Option (ErrorCode × Option StatReply) :=
  match getNodeOffset m path with
  | none => none
  | some (.ok, offset) => some (.ok, some (getStat m offset))
  | some (code, _) => some (code, none)

/-- The loop of `get_dir`: `k` entries from index `i` on, until the
reader says to stop. -/
def readEntries {σ : Type} (reader : σ → Nat → StatReply → Bool × σ)
    (m : Mem) (dirents : Nat) : Nat → Nat → σ → σ
  | 0, _, s => s
  | k + 1, i, s =>
      let r := reader s (Entry.nameOffset m dirents i)
        (getStat m (Entry.dataOffset m dirents i))
      if r.1 then r.2 else readEntries reader m dirents k (i + 1) r.2

/-- `get_dir`: the reader gets a pointer to the name and the stat of each
entry. -/
def getDir {σ : Type} (m : Mem) (path : Bytes) (startAt : Nat)
    (reader : σ → Nat → StatReply → Bool × σ) (s : σ) :
    Option (ErrorCode × σ) :=
  match getNodeOffset m path with
  | none => none
  | some (.ok, offset) =>
      if sIsDir (Node.mode m offset) = false then some (.badType, s)
      else
        some (.ok, readEntries reader m (Node.dataOffset m offset)
          (Node.length m offset - startAt) startAt s)
  | some (code, _) => some (code, s)

/-- `get_symlink`: the error code, and the stores into `buff`. -/
def getSymlink (m : Mem) (path : Bytes) (buffSize : Nat) :
    Option (ErrorCode × List Mem.Store) :=
  match getNodeOffset m path with
  | none => none
  | some (.ok, offset) =>
      if sIsLnk (Node.mode m offset) = false then some (.badType, [])
      else
        let target := Node.dataOffset m offset
        let stores : List Mem.Store :=
          [{ pos := 0
             bytes := m.strncpyFrom target (usize (buffSize + (2 ^ 64 - 1))) },
            { pos := buffSize, bytes := [0] }]
        match m.strlen target with
        | none => none
        | some len =>
            if buffSize < len then some (.tooLong, stores)
            else some (.ok, stores)
  | some (code, _) => some (code, [])

/-- What the calls on extended attributes hand back: the error code,
`*length` if it is set, and the stores into the buffer. -/
structure XattrReply where
  err : ErrorCode
  length : Option Int
  stores : List Mem.Store
  deriving DecidableEq

/-- The loop of `list_xattr`: `k` entries from index `i` on, with
`buffSize` bytes left from position `list` of the buffer. -/
def listXattrFrom (m : Mem) (entries : Nat) :
    Nat → Nat → Nat → Nat → Int → Option XattrReply
  | 0, _, _, _, length =>
      some { err := .ok, length := some length, stores := [] }
  | k + 1, i, buffSize, list, length =>
      let name := Entry.nameOffset m entries i
      match m.strlen name with
      | none => none
      | some n =>
          let res := usize (n + 1)
          let length := toInt64 (usize (toUint64 length + res))
          if buffSize = 0 then
            listXattrFrom m entries k (i + 1) buffSize list length
          else if buffSize < res then
            some { err := .tooLong, length := some length, stores := [] }
          else
            let store : Mem.Store :=
              { pos := list, bytes := m.strncpyFrom name res }
            match listXattrFrom m entries k (i + 1) (buffSize - res)
                (list + res) length with
            | none => none
            | some r => some { r with stores := store :: r.stores }

/-- `list_xattr`. -/
def listXattr (m : Mem) (path : Bytes) (buffSize : Nat) :
    Option XattrReply :=
  match getNodeOffset m path with
  | none => none
  | some (.ok, offset) =>
      listXattrFrom m (offset + nodeSize) (Node.xattrsCount m offset) 0
        buffSize 0 0
  | some (code, _) => some { err := code, length := none, stores := [] }

/-- `get_xattr`. -/
def getXattr (m : Mem) (path name : Bytes) (buffSize : Nat) :
    Option XattrReply :=
  match getNodeOffset m path with
  | none => none
  | some (.ok, offset) =>
      match findEntity m name (offset + nodeSize)
          (Node.xattrsCount m offset) with
      | none => none
      | some dataOffset =>
          if dataOffset = 0 then
            some { err := .noData, length := none, stores := [] }
          else
            let dataSize := m.readLe dataOffset usizeSize
            let length := some (toInt64 dataSize)
            if 0 < buffSize then
              if buffSize < dataSize then
                some { err := .tooLong, length := length, stores := [] }
              else
                let store : Mem.Store :=
                  { pos := 0
                    bytes := m.read (dataOffset + usizeSize) dataSize }
                some { err := .ok, length := length, stores := [store] }
            else some { err := .ok, length := length, stores := [] }
  | some (code, _) => some { err := code, length := none, stores := [] }

/-- `get_file_position` of the node at `offset`. -/
def getFilePosition (m : Mem) (offset : Nat) : Except ErrorCode (Nat × Nat) :=
  if sIsReg (Node.mode m offset) = false then .error .badType
  else .ok (Node.dataOffset m offset, Node.length m offset)

/-- The constructor from a `DataProvider`: the image, or the text of the
exception. -/
def load {σ : Type} (ops : ChunkOps σ)
    (client : UInt32 → σ → ErrorCode × σ) (heap : Nat → Mem)
    (unset : Nat → Nat) (fresh : Mem) (p : ChunkProvider σ) :
    Option (Except String Mem × ChunkProvider σ) :=
  match DataProvider.read ops client heap unset p 0 usizeSize with
  | none => none
  | some (err, buf, p) =>
      if err ≠ .ok then
        some (.error "Unable to download metafs block 0", p)
      else if allocLimit < Mem.leNat buf then none
      else
        match DataProvider.read ops client heap unset p 0 (Mem.leNat buf) with
        | none => none
        | some (err, d, p) =>
            if err ≠ .ok then
              some (.error "Unable to download metafs data", p)
            else some (.ok (fresh.write 0 d), p)

end MetaFileSystem

end Distfs

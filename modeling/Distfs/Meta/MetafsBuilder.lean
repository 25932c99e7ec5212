/-
`MetaFSBuilder`: writing the metadata image of a source tree
(`meta/metafs_builder.{h,cc}`, up to `scan_dfs`).

The image is written into one growing buffer. `new char[]` hands out
memory with some content, here the next one of `heap`; it throws when
asked for more than the address space can hold, which is `none`. The
sizes added up are those of objects in memory and do not wrap.

`scan_dfs` is recursive on paths and sorts the entries of a directory
before it visits them. The model first turns every entry into the
function that visits it (`scanners`), then sorts and runs these.
-/
import Distfs.Meta.SourceTree

namespace Distfs

/-- The size of a buffer that has been allocated. -/
abbrev BufferSize := { n : Nat // 0 < n ∧ n ≤ allocLimit }

/-- `MetaFSBuilder`; `allocs` counts the buffers allocated so far. -/
structure MetaFSBuilder where
  data : Mem
  dataSize : BufferSize
  currentPos : Nat
  allocs : Nat

namespace MetaFSBuilder

variable (heap : Nat → Mem)

/-- The state in which `build` calls `scan_dfs`: a new buffer, with place
left for the metadata length. -/
def start : MetaFSBuilder :=
  { data := heap 0
    dataSize := ⟨chunkSizeBytes, chunkSizeBytes_pos, by decide⟩
    currentPos := usizeSize
    allocs := 1 }

/-- The loop of `reserve_buffer`: double the buffer until it holds
`need` bytes. A turn for every byte is enough. -/
def grow (need : Nat) : Nat → MetaFSBuilder → Option MetaFSBuilder
  | 0, b => some b
  | fuel + 1, b =>
      if b.dataSize.1 < need then
        if h : 2 * b.dataSize.1 ≤ allocLimit then
          grow need fuel { b with
            data := fun i =>
              if i < b.dataSize.1 then b.data i else heap b.allocs i
            dataSize := ⟨2 * b.dataSize.1, by
              have := b.dataSize.2.1
              omega, h⟩
            allocs := b.allocs + 1 }
        else none
      else some b

/-- `reserve_buffer`. -/
def reserveBuffer (b : MetaFSBuilder) (length : Nat) :
    Option MetaFSBuilder :=
  grow heap (length + b.currentPos) (length + b.currentPos) b

/-- `set_stat` of the node at `p`. -/
def setStat (st : Stat) (m : Mem) (p : Nat) : Mem :=
  let m := m.writeLe p 4 st.mode.toNat
  let m := m.writeLe (p + 4) 4 st.uid.toNat
  let m := m.writeLe (p + 8) 4 st.gid.toNat
  let m := m.writeLe (p + 16) 8 (toUint64 st.size)
  let m := m.writeLe (p + 24) 8 (toUint64 st.blocks)
  let m := m.writeLe (p + 40) 8
    (toUint64 (st.ctimeNsec + st.ctimeSec * 1000000000))
  m.writeLe (p + 32) 8 (toUint64 (st.mtimeNsec + st.mtimeSec * 1000000000))

/-- The loop of `add_xattrs`: the records from index `i` on of the array
at `entries`, names and values at `pos`. -/
def addXattrsFrom (entries : Nat) :
    Nat → Xattrs → Mem → Nat → Mem × Nat
  | _, [], m, pos => (m, pos)
  | i, (name, value) :: xattrs, m, pos =>
      let m := Entry.setNameOffset m entries i pos
      let m := m.write pos (Mem.strncpyBytes name (name.length + 1))
      let pos := pos + (name.length + 1)
      let m := Entry.setDataOffset m entries i pos
      let m := m.writeLe pos 8 value.length
      let pos := pos + usizeSize
      let m := m.write pos (Mem.strncpyBytes value (value.length + 1))
      addXattrsFrom entries (i + 1) xattrs m (pos + (value.length + 1))

/-- `add_xattrs` at `pos`: the memory and the position after it. -/
def addXattrs (xattrs : Xattrs) (m : Mem) (pos : Nat) : Mem × Nat :=
  addXattrsFrom pos 0 xattrs m (pos + entrySize * xattrs.length)

/-- `add_file`. -/
def addFile (b : MetaFSBuilder) (st : Stat) (xattrs : Xattrs) :
    Option (MetaFSBuilder × Nat) :=
  match b.reserveBuffer heap (nodeSize + xattrsLen xattrs) with
  | none => none
  | some b =>
      let n := b.currentPos
      let m := setStat st b.data n
      let m := Node.setXattrsCount m n (uint32 xattrs.length)
      let (m, pos) := addXattrs xattrs m (n + nodeSize)
      some ({ b with data := m, currentPos := pos }, n)

/-- `add_link`. -/
def addLink (b : MetaFSBuilder) (st : Stat) (target : Bytes)
    (xattrs : Xattrs) : Option (MetaFSBuilder × Nat) :=
  let len := target.length + 1
  match b.reserveBuffer heap (nodeSize + len + xattrsLen xattrs) with
  | none => none
  | some b =>
      let n := b.currentPos
      let m := setStat st b.data n
      let m := Node.setXattrsCount m n (uint32 xattrs.length)
      let (m, pos) := addXattrs xattrs m (n + nodeSize)
      let m := m.write pos (Mem.strncpyBytes target len)
      let m := Node.setDataOffset m n pos
      some ({ b with data := m, currentPos := pos + len }, n)

/-- The loop of `add_dir`: the names from index `i` on, at `pos`. -/
def addNamesFrom (dirent : Nat) : Nat → List Bytes → Mem → Nat → Mem × Nat
  | _, [], m, pos => (m, pos)
  | i, name :: names, m, pos =>
      let m := m.write pos (Mem.strncpyBytes name (name.length + 1))
      let m := Entry.setNameOffset m dirent i pos
      addNamesFrom dirent (i + 1) names m (pos + (name.length + 1))

/-- `add_dir`: also the position of the directory's entries. -/
def addDir (b : MetaFSBuilder) (st : Stat) (names : List Bytes)
    (xattrs : Xattrs) : Option (MetaFSBuilder × Nat × Nat) :=
  match b.reserveBuffer heap
      (nodeSize + namesLen names + xattrsLen xattrs) with
  | none => none
  | some b =>
      let n := b.currentPos
      let m := setStat st b.data n
      let m := Node.setLength m n names.length
      let m := Node.setXattrsCount m n (uint32 xattrs.length)
      let (m, dirent) := addXattrs xattrs m (n + nodeSize)
      let m := Node.setDataOffset m n dirent
      let (m, pos) := addNamesFrom dirent 0 names m
        (dirent + entrySize * names.length)
      some ({ b with data := m, currentPos := pos }, n, dirent)

/-- `set_dirent_node_offset`. Its index is an `int`: one from `2 ^ 31` on
turns negative, and an access before the first element of an array is
undefined. -/
def setDirentNodeOffset (b : MetaFSBuilder) (direntPos pos value : Nat) :
    Option MetaFSBuilder :=
  if pos < 2 ^ 31 then
    some { b with data := Entry.setDataOffset b.data direntPos pos value }
  else none

/-- `read_xattrs`: `std::sort` by name, then by value. -/
def readXattrs (xattrs : Xattrs) : Xattrs :=
  xattrs.insertionSort fun x y => x.1 < y.1 ∨ x.1 = y.1 ∧ x.2 ≤ y.2

/-- The visit of something: the builder after it, and the offset it
returns. -/
abbrev Visit := MetaFSBuilder → Option (MetaFSBuilder × Nat)

/-- The last loop of `scan_dfs`: visit the entries from index `i` on, and
enter the offset of each. -/
def scanEntries (dirents : Nat) :
    Nat → List (Bytes × Visit) → MetaFSBuilder → Option MetaFSBuilder
  | _, [], b => some b
  | i, e :: es, b =>
      match e.2 b with
      | none => none
      | some (b, offset) =>
          match b.setDirentNodeOffset dirents i offset with
          | none => none
          | some b => scanEntries dirents (i + 1) es b

mutual

/-- `scan_dfs`. -/
def scanDfs : SourceTree → Visit
  | .gone, b => some (b, 0)
  | .node st xattrs target entries, b =>
      if ¬ isSupported st.mode.toNat then some (b, 0)
      else
        let xattrs := readXattrs xattrs
        if sIsLnk st.mode.toNat then
          b.addLink heap st (linkName target) xattrs
        else if sIsReg st.mode.toNat then b.addFile heap st xattrs
        else
          let es := (scanners entries).insertionSort fun a b => a.1 ≤ b.1
          match b.addDir heap st (es.map Prod.fst) xattrs with
          | none => none
          | some (b, addr, dirents) =>
              match scanEntries dirents 0 es b with
              | none => none
              | some b => some (b, addr)

/-- The visits of the kept entries of a directory. -/
def scanners :
    List (Bytes × Option UInt32 × SourceTree) → List (Bytes × Visit)
  | [] => []
  | e :: es =>
      if keeps e then (e.1, scanDfs e.2.2) :: scanners es else scanners es

end

end MetaFSBuilder

end Distfs

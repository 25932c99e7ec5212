/-
The records of the metadata image (`meta/types.h`): a `Node` for each
file, and `Entry` arrays for directories and extended attributes.

The image is a byte memory, and a record is read where a pointer to it
points: field offsets are those of the x86-64 layout, little-endian.
Four bytes of padding follow `gid` and `xattrs_count`.
-/
import Distfs.Common.Basic
import Mathlib.Algebra.Group.Int.Defs
import Mathlib.Algebra.GroupWithZero.Nat

namespace Distfs

/-- What the program uses of `struct stat`. Sizes and times are signed
there. -/
structure Stat where
  mode : UInt32
  uid : UInt32
  gid : UInt32
  size : Int
  blocks : Int
  mtimeSec : Int
  mtimeNsec : Int
  ctimeSec : Int
  ctimeNsec : Int
  deriving DecidableEq

/-- `S_ISLNK`. -/
def sIsLnk (mode : Nat) : Bool := mode &&& 0xF000 = 0xA000

/-- `S_ISREG`. -/
def sIsReg (mode : Nat) : Bool := mode &&& 0xF000 = 0x8000

/-- `S_ISDIR`. -/
def sIsDir (mode : Nat) : Bool := mode &&& 0xF000 = 0x4000

/-- `ISSUPPORTED`. -/
def isSupported (mode : Nat) : Bool :=
  sIsLnk mode || sIsReg mode || sIsDir mode

/-- `static_cast<uint64_t>` of a signed number. -/
def toUint64 (n : Int) : Nat := (n % 2 ^ 64).toNat

/-- `sizeof(Node)`. -/
def nodeSize : Nat := 72

/-- `sizeof(Entry)`. -/
def entrySize : Nat := 16

/-- `sizeof(usize)`. -/
def usizeSize : Nat := 8

namespace Node

/-- The fields of the node at `p`. -/
def mode (m : Mem) (p : Nat) : Nat := m.readLe p 4

/-- `uid`. -/
def uid (m : Mem) (p : Nat) : Nat := m.readLe (p + 4) 4

/-- `gid`. -/
def gid (m : Mem) (p : Nat) : Nat := m.readLe (p + 8) 4

/-- `size`. -/
def size (m : Mem) (p : Nat) : Nat := m.readLe (p + 16) 8

/-- `block_count`. -/
def blockCount (m : Mem) (p : Nat) : Nat := m.readLe (p + 24) 8

/-- `mtime_ns`. -/
def mtimeNs (m : Mem) (p : Nat) : Nat := m.readLe (p + 32) 8

/-- `ctime_ns`. -/
def ctimeNs (m : Mem) (p : Nat) : Nat := m.readLe (p + 40) 8

/-- `xattrs_count`. -/
def xattrsCount (m : Mem) (p : Nat) : Nat := m.readLe (p + 48) 4

/-- `length`. -/
def length (m : Mem) (p : Nat) : Nat := m.readLe (p + 56) 8

/-- `data_offset`. -/
def dataOffset (m : Mem) (p : Nat) : Nat := m.readLe (p + 64) 8

/-- Store to `xattrs_count`. -/
def setXattrsCount (m : Mem) (p v : Nat) : Mem := m.writeLe (p + 48) 4 v

/-- Store to `length`. -/
def setLength (m : Mem) (p v : Nat) : Mem := m.writeLe (p + 56) 8 v

/-- Store to `data_offset`. -/
def setDataOffset (m : Mem) (p v : Nat) : Mem := m.writeLe (p + 64) 8 v

variable {m : Mem} {p v a : Nat}

/-- A field is a `usize`. -/
theorem length_lt (m : Mem) (p : Nat) : length m p < 2 ^ 64 :=
  Mem.readLe_lt m (p + 56) 8

/-- The offset is a `usize`. -/
theorem dataOffset_lt (m : Mem) (p : Nat) : dataOffset m p < 2 ^ 64 :=
  Mem.readLe_lt m (p + 64) 8

/-- The count leaves the other bytes. -/
theorem setXattrsCount_outside (h : a < p + 48 ∨ p + 52 ≤ a) :
    setXattrsCount m p v a = m a := Mem.writeLe_outside m h

/-- The length leaves the other bytes. -/
theorem setLength_outside (h : a < p + 56 ∨ p + 64 ≤ a) :
    setLength m p v a = m a := Mem.writeLe_outside m h

theorem setDataOffset_outside (h : a < p + 64 ∨ p + 72 ≤ a) :
    setDataOffset m p v a = m a := Mem.writeLe_outside m h

/-- A length comes back as far as it fits. -/
theorem length_setLength : length (setLength m p v) p = v % 2 ^ 64 :=
  Mem.readLe_writeLe_self m (p + 56) 8 v

/-- An offset comes back as far as it fits. -/
theorem dataOffset_setDataOffset :
    dataOffset (setDataOffset m p v) p = v % 2 ^ 64 :=
  Mem.readLe_writeLe_self m (p + 64) 8 v

end Node

namespace Entry

/-- `name_offset` of the entry at index `i` of the array at `p`. -/
def nameOffset (m : Mem) (p i : Nat) : Nat := m.readLe (p + entrySize * i) 8

/-- `data_offset`. -/
def dataOffset (m : Mem) (p i : Nat) : Nat :=
  m.readLe (p + entrySize * i + 8) 8

/-- Store to `name_offset`. -/
def setNameOffset (m : Mem) (p i v : Nat) : Mem :=
  m.writeLe (p + entrySize * i) 8 v

/-- Store to `data_offset`. -/
def setDataOffset (m : Mem) (p i v : Nat) : Mem :=
  m.writeLe (p + entrySize * i + 8) 8 v

variable {m m' : Mem} {p i v a : Nat}

/-- The name's offset leaves the other bytes. -/
theorem setNameOffset_outside (h : a < p + 16 * i ∨ p + 16 * i + 8 ≤ a) :
    setNameOffset m p i v a = m a := Mem.writeLe_outside m h

theorem setDataOffset_outside
    (h : a < p + 16 * i + 8 ∨ p + 16 * i + 16 ≤ a) :
    setDataOffset m p i v a = m a := Mem.writeLe_outside m h

/-- A name's offset comes back as far as it fits. -/
theorem nameOffset_setNameOffset :
    nameOffset (setNameOffset m p i v) p i = v % 2 ^ 64 :=
  Mem.readLe_writeLe_self m (p + entrySize * i) 8 v

theorem dataOffset_setDataOffset :
    dataOffset (setDataOffset m p i v) p i = v % 2 ^ 64 :=
  Mem.readLe_writeLe_self m (p + entrySize * i + 8) 8 v

/-- A name's offset is read from its eight bytes only. -/
theorem nameOffset_congr
    (h : ∀ a, p + 16 * i ≤ a → a < p + 16 * i + 8 → m a = m' a) :
    nameOffset m p i = nameOffset m' p i := Mem.readLe_congr h

/-- The data's offset is read from its eight bytes only. -/
theorem dataOffset_congr
    (h : ∀ a, p + 16 * i + 8 ≤ a → a < p + 16 * i + 16 → m a = m' a) :
    dataOffset m p i = dataOffset m' p i := Mem.readLe_congr h

end Entry

end Distfs

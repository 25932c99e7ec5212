/-
The constants and the error codes every layer shares
(`common/consts.h`, `common/error_code.h`), and the machine widths.

Chunk ids are `uint32_t` throughout and are modelled by `UInt32`.
Positions, lengths and addresses (`usize`, `size_t`) are natural
numbers; `usize n` is the reduction to 64 bits, written where a sum
could leave the range.
-/
import Distfs.Lib.Memory

namespace Distfs

/-- A byte string (`std::string`, or the content of a `char` array). -/
abbrev Bytes := List UInt8

/-- `CHUNK_SIZE_BYTES`: 4 MB. -/
def chunkSizeBytes : Nat := 1024 * 1024 * 4

/-- `WIRE_CHUNK_SIZE_BYTES`: 0.4 MB. -/
def wireChunkSizeBytes : Nat := 1024 * 410

/-- `INFO_REFRESH_S`. -/
def infoRefreshS : Int := 10

/-- `PEX_REFRESH_S`. -/
def pexRefreshS : Int := 60

theorem chunkSizeBytes_eq : chunkSizeBytes = 4194304 := rfl

theorem chunkSizeBytes_pos : 0 < chunkSizeBytes := by decide

theorem wireChunkSizeBytes_pos : 0 < wireChunkSizeBytes := by decide

/-- `ErrorCode`. -/
inductive ErrorCode where
  | ok
  | notFound
  | accessDenied
  | tooLong
  | noData
  | badType
  | internalError
  | notImplemented
  deriving DecidableEq, Repr

/-- The largest size `new char[]` accepts. -/
def allocLimit : Nat := 2 ^ 63 - 1

/-- Reduction to the 64 bits of a `usize`. -/
def usize (n : Nat) : Nat := n % 2 ^ 64

theorem usize_of_lt {n : Nat} (h : n < 2 ^ 64) : usize n = n :=
  Nat.mod_eq_of_lt h

/-- Reduction to the 32 bits of a `uint32_t`. -/
def uint32 (n : Nat) : Nat := n % 2 ^ 32

theorem uint32_of_lt {n : Nat} (h : n < 2 ^ 32) : uint32 n = n :=
  Nat.mod_eq_of_lt h

end Distfs

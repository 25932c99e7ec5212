/-
Which reads of a file stay in the file.

# The two ways out

`distfs_read` subtracts the offset from the stored length in `usize`.
Behind the end of the file the difference wraps, and as many bytes as
asked for are read from what stands there: the next file, or, for a file
that could not be opened and whose `data_offset` is the last address,
the image. And the number of bytes is returned as an `int`, which is
negative from `2 ^ 31` on.

# What is said

`Confined` runs the callback on a data provider that knows a flat address
space and writes down what it is asked. `confined_of_inFile` and
`inFile_of_confined` are the two directions, for every image whatsoever.
-/
import Distfs.Fuse.FuseMain
import Distfs.Meta.Built
import Distfs.Meta.Lookup

namespace Distfs

open SourceTree ChunkBuilder DataProvider MetaFSBuilder

namespace Fuse

/-- A data provider over a flat address space: it answers with the bytes
there, and keeps the requests. -/
def flatRead (flat : Mem) (asked : List (Nat × Nat)) (a n : Nat) :
    Option (ErrorCode × Bytes × List (Nat × Nat)) :=
  some (.ok, flat.read a n, asked ++ [(a, n)])

/-- The read returns as many bytes as there are from `offset` on, at most
`size`, and they are those of the file's `content`. It asks for no
address outside of the range that the node stores. -/
def Confined (flat mfs : Mem) (fh size offset : Nat) (content : Bytes) :
    Prop :=
  ∃ asked, distfsRead (flatRead flat) [] mfs fh size offset
      = some (((min (Node.length mfs fh - offset) size : Nat) : Int),
        (content.drop offset).take size, asked)
    ∧ ∀ q ∈ asked, ∀ a, q.1 ≤ a → a < q.1 + q.2 →
      Node.dataOffset mfs fh ≤ a
        ∧ a < Node.dataOffset mfs fh + Node.length mfs fh

/-- The read starts in a file of length `len`, or asks for nothing; and
the number of its bytes is an `int`. -/
def InFile (len size offset : Nat) : Prop :=
  (offset ≤ len ∨ size = 0) ∧ min (len - offset) size < 2 ^ 31

instance (len size offset : Nat) : Decidable (InFile len size offset) :=
  inferInstanceAs (Decidable (_ ∧ _))

variable {flat mfs : Mem} {fh size offset : Nat}

theorem toUint64_of_lt (h : offset < 2 ^ 63) :
    toUint64 (offset : Int) = offset := by
  unfold toUint64
  omega

/-- What the callback asks and answers. -/
theorem distfsRead_flat (hreg : sIsReg (Node.mode mfs fh) = true)
    (hoffset : offset < 2 ^ 63) :
    distfsRead (flatRead flat) [] mfs fh size offset
      = some (toInt32 (uint32 (min (usize (Node.length mfs fh
              + (2 ^ 64 - offset))) size)),
          flat.read (usize (Node.dataOffset mfs fh + offset))
            (min (usize (Node.length mfs fh + (2 ^ 64 - offset))) size),
          [(usize (Node.dataOffset mfs fh + offset),
            min (usize (Node.length mfs fh + (2 ^ 64 - offset))) size)]) := by
  unfold distfsRead MetaFileSystem.getFilePosition
  rw [hreg, toUint64_of_lt hoffset]
  rfl

/-- Behind the end of the file the length wraps, and is not zero. -/
theorem usize_wrapped {len : Nat} (h : len < offset)
    (hoffset : offset < 2 ^ 63) :
    0 < usize (len + (2 ^ 64 - offset)) := by
  unfold usize
  omega

theorem usize_sub {len : Nat} (h : offset ≤ len) (hlen : len < 2 ^ 64) :
    usize (len + (2 ^ 64 - offset)) = len - offset := by
  unfold usize
  omega

theorem toInt32_eq_iff {n : Nat} (hn : n < 2 ^ 64) :
    toInt32 (uint32 n) = (n : Int) ↔ n < 2 ^ 31 := by
  unfold toInt32 uint32
  constructor
  · intro h
    split at h <;> omega
  · intro h
    rw [if_pos (by omega)]
    omega

/-- A read within the file is confined to it. -/
theorem confined_of_inFile (hreg : sIsReg (Node.mode mfs fh) = true)
    (hoffset : offset < 2 ^ 63)
    (hin : InFile (Node.length mfs fh) size offset)
    (hwrap : min (Node.length mfs fh - offset) size = 0
      ∨ Node.dataOffset mfs fh + offset < 2 ^ 64) :
    Confined flat mfs fh size offset
      (flat.read (Node.dataOffset mfs fh) (Node.length mfs fh)) := by
  have hlen := Node.length_lt mfs fh
  obtain ⟨hle, hint⟩ := hin
  -- what is asked for is what is left of the file
  have hn : min (usize (Node.length mfs fh + (2 ^ 64 - offset))) size
      = min (Node.length mfs fh - offset) size := by
    rcases hle with hle | hzero
    · rw [usize_sub hle hlen]
    · omega
  refine ⟨[(usize (Node.dataOffset mfs fh + offset),
    min (Node.length mfs fh - offset) size)], ?_, ?_⟩
  · rw [distfsRead_flat hreg hoffset, hn, (toInt32_eq_iff (by omega)).2 hint,
      Mem.drop_read, Mem.take_read, Nat.min_comm size]
    rcases hwrap with hzero | hwrap
    · rw [hzero, Mem.read_zero, Mem.read_zero]
    · rw [usize_of_lt hwrap]
  · intro q hq a hlo hhi
    rw [List.mem_singleton] at hq
    subst hq
    simp only at hlo hhi
    rcases hwrap with hzero | hwrap
    · omega
    · rw [usize_of_lt hwrap] at hlo hhi
      omega

/-- A read that is confined to the file is within it. -/
theorem inFile_of_confined (hreg : sIsReg (Node.mode mfs fh) = true)
    (hoffset : offset < 2 ^ 63) (hsize : size < 2 ^ 64) {content : Bytes}
    (h : Confined flat mfs fh size offset content) :
    InFile (Node.length mfs fh) size offset
      ∧ (min (Node.length mfs fh - offset) size = 0
        ∨ Node.dataOffset mfs fh + offset < 2 ^ 64) := by
  have hlen := Node.length_lt mfs fh
  have hoff := Node.dataOffset_lt mfs fh
  obtain ⟨asked, hrun, hin⟩ := h
  rw [distfsRead_flat hreg hoffset, Option.some.injEq, Prod.mk.injEq,
    Prod.mk.injEq] at hrun
  obtain ⟨hanswer, -, rfl⟩ := hrun
  -- the first address asked for, if there is one
  have hfirst := hin _ (List.mem_singleton_self _)
    (usize (Node.dataOffset mfs fh + offset)) (Nat.le_refl _)
  have haddress : Node.dataOffset mfs fh + offset < 2 ^ 64
      ∨ usize (Node.dataOffset mfs fh + offset) < Node.dataOffset mfs fh := by
    unfold usize
    omega
  rcases Nat.lt_or_ge (Node.length mfs fh) offset with hbehind | hle
  · have hpos := usize_wrapped hbehind hoffset
    have hzero : size = 0 := by
      by_contra hsize0
      obtain ⟨hlo, hhi⟩ := hfirst (by simp only; omega)
      rcases haddress with hlt | hlt
      · rw [usize_of_lt hlt] at hhi
        omega
      · omega
    exact ⟨⟨.inr hzero, by omega⟩, .inl (by omega)⟩
  · rw [usize_sub hle hlen] at hanswer hfirst
    refine ⟨⟨.inl hle, (toInt32_eq_iff (by omega)).1 hanswer⟩, ?_⟩
    rcases haddress with hlt | hlt
    · exact .inr hlt
    · refine .inl ?_
      by_contra hpos
      obtain ⟨hlo, -⟩ := hfirst (by simp only; omega)
      omega

/-- In what was built and mounted, the range of a file lies in the address
space and holds what was delivered; nothing, if nothing was. -/
theorem stored_of_leaves {σ : Type} {chunks : UInt32 → Option Bytes}
    {t : SourceTree} {source : List Bytes → SourceFile} {r : Built σ}
    (h : Leaves chunks t source r)
    (himage : mfs.read 0 r.size = r.data.read 0 r.size)
    {path : List Bytes} (hp : RegularAt t path fh) :
    sIsReg (Node.mode mfs fh) = true
      ∧ Node.dataOffset mfs fh + Node.length mfs fh < 2 ^ 64
      ∧ (addressSpace chunks).read (Node.dataOffset mfs fh)
          (Node.length mfs fh)
        = (delivered (source path)).getD [] := by
  have hsame : ∀ a, a < r.size → mfs a = r.data a := fun a ha =>
    Mem.eq_of_read_eq himage (Nat.zero_le a) (by omega)
  obtain ⟨hlength, hoffset⟩ := fields_loaded h.size hsame hp
  have haddressed := h.addressed path fh hp
  rw [hlength, hoffset]
  refine ⟨?_, haddressed, ?_⟩
  · obtain ⟨s, hplaced, hs⟩ := hp
    have hat : At mfs usizeSize t := h.records.congr fun a _ ha _ =>
      (hsame a (by rwa [h.size])).symm
    rw [((hat.placed hplaced).kind hplaced.within.1).2]
    exact hs
  · cases hdelivered : delivered (source path) with
    | none =>
        rw [(h.missing path fh hp hdelivered).2]
        rfl
    | some content =>
        obtain ⟨hlen, -, hcovers⟩ := h.content path fh content hp hdelivered
        rw [hlen]
        exact hcovers.read

/-- The file of a small tree, and what is built of it. -/
theorem built_one_file (source : SourceFile) (hsound : Sound source)
    (hlen : sourceLen source ≤ 2 ^ 20) :
    ∃ r fh, build MemoryStore.ops (fun _ => source) 200 (fun _ _ => 0)
          [47, 115] (MetaFileSystem.oneFile []) (new .empty fun _ => 0)
        = some r
      ∧ RegularAt (MetaFileSystem.oneFile []) [[102]] fh
      ∧ Leaves (MemoryStore.chunks r.chunks.store) (MetaFileSystem.oneFile [])
        (sourceAt (fun _ => source) [47, 115]) r := by
  obtain ⟨b, hscan⟩ := @scanDfs_small (fun _ _ => 0)
    (MetaFileSystem.oneFile []) (by decide) (by decide)
  have hnamed : Named (MetaFileSystem.oneFile []) [[102]]
      (.node (MetaFileSystem.statOf 0x81A4) [] [] []) :=
    .entry _ ([102], _) [] _
      (by rw [MetaFileSystem.oneFile_kept]; exact List.mem_singleton_self _)
      (.here _ (by decide))
  obtain ⟨fh, hplaced⟩ := hnamed.placed usizeSize
  have htotal : totalLen (MetaFileSystem.oneFile [])
      (sourceAt (fun _ => source) [47, 115]) ≤ 2 ^ 21 := by
    have hsum : totalLen (MetaFileSystem.oneFile [])
        (sourceAt (fun _ => source) [47, 115])
      = 8 + 162 + (sourceLen source + 0) := rfl
    omega
  have hsmall : 2 ^ 21 ≤ 2 ^ 32 * chunkSizeBytes := by decide
  rcases build_spec (MemoryStore.faithful _) hsmall
      (MetaFileSystem.oneFile_static []).found (by decide) htotal
      MemoryStore.ready_empty (fun _ => rfl) (fun _ => 0) hscan
      (show _ ≤ 200 by decide)
    with ⟨-, path, st, -, -, hunsound⟩ | ⟨r, hbuild, -, hleaves⟩
  · exact absurd hsound hunsound
  · exact ⟨r, fh, hbuild, ⟨_, hplaced, by decide⟩, hleaves⟩

/-- A read is confined to its file if and only if it starts in the file
or asks for nothing, and the number of its bytes is an `int`.

The first part is for every image: the file is what its node says, and
its range may run out of the address space. The second part is for what
`build` leaves, where no range does: the file is what could be read when
it was added, nothing if it could not be opened. -/
theorem confined_iff_inFile (mfs : Mem) (fh size offset : Nat)
    (hoffset : offset < 2 ^ 63) (hsize : size < 2 ^ 64) :
    (∀ flat : Mem, sIsReg (Node.mode mfs fh) = true →
      (Confined flat mfs fh size offset
          (flat.read (Node.dataOffset mfs fh) (Node.length mfs fh))
        ↔ InFile (Node.length mfs fh) size offset
          ∧ (min (Node.length mfs fh - offset) size = 0
            ∨ Node.dataOffset mfs fh + offset < 2 ^ 64)))
    ∧ ∀ {σ : Type} (ops : ChunkOps σ) (ready : σ → Prop)
      (view : σ → UInt32 → Option Bytes) (openAt : Bytes → SourceFile)
      (heap : Nat → Mem) (root : Bytes) (t : SourceTree) (s : σ) (buff : Mem)
      (fuel : Nat) (r : Built σ),
      Found t →
      totalLen t (sourceAt openAt root) ≤ 2 ^ 32 * chunkSizeBytes →
      ops.Faithful ready view
        (fun id => id.toNat ≤ totalLen t (sourceAt openAt root)
          / chunkSizeBytes) →
      ready s → (∀ id, view s id = none) →
      build ops openAt fuel heap root t (new s buff) = some r →
      ∀ path : List Bytes,
        mfs.read 0 r.size = r.data.read 0 r.size → RegularAt t path fh →
        (Confined (addressSpace (view r.chunks.store)) mfs fh size offset
            ((delivered (sourceAt openAt root path)).getD [])
          ↔ InFile (Node.length mfs fh) size offset) := by
  constructor
  · intro flat hreg
    exact ⟨inFile_of_confined hreg hoffset hsize,
      fun ⟨hin, hwrap⟩ => confined_of_inFile hreg hoffset hin hwrap⟩
  · intro σ ops ready view openAt heap root t s buff fuel r hfound htotal hf
      hready hempty hbuild path himage hp
    have hsup : t.supported = true := by
      obtain ⟨st, hplaced, -⟩ := hp
      exact hplaced.root
    obtain ⟨-, hleaves⟩ := leaves_of_build hf htotal hfound hsup
      (Nat.le_refl _) hready hempty hbuild
    obtain ⟨hreg, haddressed, hcontent⟩ := stored_of_leaves hleaves himage hp
    rw [← hcontent]
    constructor
    · exact fun h => (inFile_of_confined hreg hoffset hsize h).1
    · intro hin
      refine confined_of_inFile hreg hoffset hin ?_
      omega

/-- Four bytes asked for from the second one on, of a file of two. -/
theorem confined_second_byte :
    ∃ r fh, build MemoryStore.ops
          (fun _ => .opened { rest := [104, 105], script := [.upTo 1] }) 200
          (fun _ _ => 0) [47, 115] (MetaFileSystem.oneFile [])
          (new .empty fun _ => 0)
        = some r
      ∧ RegularAt (MetaFileSystem.oneFile []) [[102]] fh
      ∧ Confined (addressSpace (MemoryStore.chunks r.chunks.store)) r.data fh
        4 1 [104, 105] := by
  obtain ⟨r, fh, hbuild, hp, hleaves⟩ := built_one_file
    (.opened { rest := [104, 105], script := [.upTo 1] })
    (show ∀ c ∈ [Transfer.Call.upTo 1], c.Progress by decide) (by decide)
  have hdelivered : delivered (sourceAt
      (fun _ => .opened { rest := [104, 105], script := [.upTo 1] })
      [47, 115] [[102]]) = some [104, 105] :=
    Transfer.readAll_of_progress chunkSizeBytes_pos _ (by decide)
  have hlen : Node.length r.data fh = 2 :=
    (hleaves.content _ _ _ hp hdelivered).1
  refine ⟨r, fh, hbuild, hp, ?_⟩
  have h := ((confined_iff_inFile r.data fh 4 1 (by decide) (by decide)).2
    MemoryStore.ops MemoryStore.Ready MemoryStore.chunks
    (fun _ => .opened { rest := [104, 105], script := [.upTo 1] })
    (fun _ _ => 0) [47, 115] (MetaFileSystem.oneFile []) .empty (fun _ => 0)
    200 r (MetaFileSystem.oneFile_static []).found (by decide)
    (MemoryStore.faithful _) MemoryStore.ready_empty (fun _ => rfl) hbuild
    [[102]] rfl hp).2 (by rw [hlen]; decide)
  rwa [hdelivered] at h

/-- A file that could not be opened, read behind its end: the answer is the
start of the image. -/
theorem distfsRead_leaks_image :
    ∃ r fh, build MemoryStore.ops (fun _ => .denied) 200 (fun _ _ => 0)
          [47, 115] (MetaFileSystem.oneFile []) (new .empty fun _ => 0)
        = some r
      ∧ RegularAt (MetaFileSystem.oneFile []) [[102]] fh
      ∧ (∀ flat, distfsRead (flatRead flat) [] r.data fh 4 1
        = some (4, flat.read 0 4, [(0, 4)]))
      ∧ ¬ Confined (addressSpace (MemoryStore.chunks r.chunks.store)) r.data
        fh 4 1 [] := by
  obtain ⟨r, fh, hbuild, hp, hleaves⟩ :=
    built_one_file .denied trivial (by decide)
  obtain ⟨hreg, -⟩ := stored_of_leaves hleaves rfl hp
  obtain ⟨hoff, hlen⟩ := hleaves.missing _ _ hp rfl
  refine ⟨r, fh, hbuild, hp, fun flat => ?_, fun h => ?_⟩
  · have hread := @distfsRead_flat flat r.data fh 4 1 hreg (by decide)
    rw [hoff, hlen] at hread
    exact hread
  · have hin := (inFile_of_confined hreg (by decide) (by decide) h).1
    rw [hlen] at hin
    exact absurd hin (by decide)

end Fuse

end Distfs

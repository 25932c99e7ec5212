/-
What the mounted file system is for: a source tree that can be read.

# The file system

Nothing here knows of images, chunks or offsets. A path is the list of
its components, a file is what was found under its path, and a handle is
the number of an `open` that went well. `answer` says what a process
should get for a request; its state are the paths of the handles.

# What is asked of tree and requests

`Mountable` names what the image can hold of a tree without loss, and
`Allowed` which requests the callbacks answer as they should. Both leave
out only what is known to go wrong: times before 1970, values of
attributes with NULs inside, a directory that has attributes as well as
entries; a read that starts behind the end of its file, a buffer that
the first names of some attributes fill exactly, a link that does not
leave two bytes of the buffer.
-/
import Distfs.Fuse.FuseMain
import Distfs.Meta.Stats
import Distfs.Meta.XattrValues

namespace Distfs

open SourceTree

/-- What `get_stat` should tell: access is modification, and a directory
has two links. -/
def Stat.reply (st : Stat) : StatReply :=
  { mode := st.mode.toNat
    nlink := if sIsDir st.mode.toNat then 2 else 1
    uid := st.uid.toNat
    gid := st.gid.toNat
    size := st.size
    blocks := st.blocks
    atime := (st.mtimeSec.toNat, st.mtimeNsec.toNat)
    mtime := (st.mtimeSec.toNat, st.mtimeNsec.toNat)
    ctime := (st.ctimeSec.toNat, st.ctimeNsec.toNat) }

namespace TreeFs

/-- `EBADF`: what the kernel answers for a handle that is not open. -/
def ebadf : Int := 9

-- ========================================================== the tree

/-- The node of a path. -/
def find : SourceTree → List Bytes → Option SourceTree
  | t, [] => if t.supported then some t else none
  | t, c :: path =>
      match t.kept.find? fun e => e.1 = c with
      | none => none
      | some e => find e.2 path

/-- The stat of a node; what is gone has none. -/
def statReply : SourceTree → StatReply
  | .gone => (MetaFileSystem.statOf 0).reply
  | .node st _ _ _ => st.reply

/-- The target, of a link. -/
def linkTarget : SourceTree → Option Bytes
  | .gone => none
  | .node st _ target _ => if sIsLnk st.mode.toNat then some target else none

/-- The names of the attributes, in ascending order. -/
def xattrNames (xattrs : Xattrs) : List Bytes :=
  (xattrs.map Prod.fst).insertionSort (· ≤ ·)

/-- An entry of a directory, and where to resume behind it. -/
structure Dirent where
  name : Bytes
  stat : StatReply
  next : Int
  deriving DecidableEq

/-- The entries of a directory in ascending order. -/
def dirents (s : SourceTree) : List Dirent :=
  s.kept.mapIdx fun i e =>
    { name := e.1, stat := statReply e.2, next := (i : Int) + 1 }

/-- What a buffer takes of the entries, until one does not fit. -/
def takeFitting (fits : List Dirent → Dirent → Bool) :
    List Dirent → List Dirent → List Dirent
  | taken, [] => taken
  | taken, e :: es =>
      if fits taken e then takeFitting fits (taken ++ [e]) es else taken

-- ======================================================= the requests

/-- What a process asks for. -/
inductive FsRequest where
  | getattr (path : List Bytes)
  | readlink (path : List Bytes) (size : Nat)
  | readdir (path : List Bytes) (offset : Nat)
      (fits : List Dirent → Dirent → Bool)
  | getxattr (path : List Bytes) (name : Bytes) (size : Nat)
  | listxattr (path : List Bytes) (size : Nat)
  | openFile (path : List Bytes) (flags : Nat)
  | read (handle size offset : Nat)

/-- What it gets. -/
inductive FsReply where
  | error (code : Int)
  | stat (st : StatReply)
  | target (name : Bytes)
  | entries (es : List Dirent)
  | length (n : Nat)
  | bytes (bs : Bytes)
  | handle (n : Nat)
  deriving DecidableEq

/-- The size protocol of extended attributes. -/
def sized (size : Nat) (bs : Bytes) : FsReply :=
  if size = 0 then .length bs.length
  else if size < bs.length then .error (-erange)
  else .bytes bs

/-- What is done with the node of a path, if there is one. -/
def atNode (t : SourceTree) (path : List Bytes)
    (f : SourceTree → FsReply) : FsReply :=
  match find t path with
  | none => .error (-enoent)
  | some s => f s

/-- The target of a link. -/
def readlink (s : SourceTree) : FsReply :=
  match linkTarget s with
  | none => .error (-einval)
  | some target => .target target

/-- The entries of a directory from an index on. -/
def readdir (offset : Nat) (fits : List Dirent → Dirent → Bool)
    (s : SourceTree) : FsReply :=
  if s.isDir then .entries (takeFitting fits [] ((dirents s).drop offset))
  else .error (-enotdir)

/-- The value of an attribute. -/
def getxattr (name : Bytes) (size : Nat) (s : SourceTree) : FsReply :=
  match s.attrs.find? fun x => x.1 = name with
  | none => .error (-enodata)
  | some x => sized size x.2

/-- The names of the attributes, each with its terminator. -/
def listxattr (size : Nat) (s : SourceTree) : FsReply :=
  sized size (MetaFileSystem.terminated (xattrNames s.attrs)).flatten

/-- A slice of a file. -/
def readFile (content : Bytes) (size offset : Nat) (s : SourceTree) :
    FsReply :=
  if s.isReg then .bytes ((content.drop offset).take size)
  else .error (-eacces)

/-- The answer to a request, and the paths of the handles after it;
`content` is what is in the files. -/
def answer (t : SourceTree) (content : List Bytes → Bytes)
    (handles : List (List Bytes)) :
    FsRequest → FsReply × List (List Bytes)
  | .getattr path => (atNode t path fun s => .stat (statReply s), handles)
  | .readlink path _ => (atNode t path readlink, handles)
  | .readdir path offset fits =>
      (atNode t path (readdir offset fits), handles)
  | .getxattr path name size =>
      (atNode t path (getxattr name size), handles)
  | .listxattr path size => (atNode t path (listxattr size), handles)
  | .openFile path flags =>
      if flags &&& oWrite ≠ 0 then (.error (-1), handles)
      else
        match find t path with
        | none => (.error (-enoent), handles)
        | some _ => (.handle handles.length, handles ++ [path])
  | .read handle size offset =>
      match handles[handle]? with
      | none => (.error (-ebadf), handles)
      | some path =>
          (atNode t path (readFile (content path) size offset), handles)

-- ======================================================= the limits

/-- What an image can hold of the node. -/
structure NodeFits (st : Stat) (xattrs : Xattrs) (target : Bytes) : Prop where
  valid : st.Valid
  modern : 0 ≤ st.mtimeSec ∧ 0 ≤ st.ctimeSec
  names : ∀ x ∈ xattrs, 0 ∉ x.1
  distinct : (xattrs.map Prod.fst).Nodup
  few : xattrs.length ≤ 2 ^ 30 + 1
  padded : ∀ x ∈ xattrs, Padded x.2
  short : ∀ x ∈ xattrs, x.2.length < 2 ^ 31
  listed : MetaFSBuilder.namesBody (xattrs.map Prod.fst) < 2 ^ 31
  link : 0 ∉ target ∧ target.length ≤ pathMax

/-- What an image can hold of the tree. -/
structure Mountable (t : SourceTree) : Prop where
  static : Static t
  supported : t.supported = true
  plain : MetaFileSystem.Plain t
  fits : ∀ path st xattrs target entries,
    Named t path (.node st xattrs target entries) →
    NodeFits st xattrs target

/-- The request is one that the callbacks answer as they should. -/
def Allowed (t : SourceTree) (content : List Bytes → Bytes)
    (handles : List (List Bytes)) : FsRequest → Prop
  | .getattr path => ∀ c ∈ path, Component c
  | .readlink path size => (∀ c ∈ path, Component c) ∧ size < 2 ^ 64
      ∧ 0 < size ∧ ∀ s target, find t path = some s →
        linkTarget s = some target → target.length + 2 ≤ size
  | .readdir path offset _ => (∀ c ∈ path, Component c)
      ∧ ∀ s, find t path = some s → offset ≤ s.kept.length
  | .getxattr path name _ => (∀ c ∈ path, Component c) ∧ 0 ∉ name
  | .listxattr path size => (∀ c ∈ path, Component c)
      ∧ ∀ s, find t path = some s →
        ¬ MetaFileSystem.EndsInside (xattrNames s.attrs) size
  | .openFile path _ => ∀ c ∈ path, Component c
  | .read handle size offset => offset < 2 ^ 63
      ∧ ∀ path, handles[handle]? = some path →
        (offset ≤ (content path).length ∨ size = 0)
          ∧ min ((content path).length - offset) size < 2 ^ 31

-- ========================================================= finding

variable {t s : SourceTree} {path : List Bytes}

theorem find_named (h : find t path = some s) : Named t path s := by
  induction path generalizing t with
  | nil =>
      rw [find] at h
      split at h
      · next hsup =>
        cases h
        exact .here _ hsup
      · cases h
  | cons c path ih =>
      rw [find] at h
      split at h
      · cases h
      · next e he =>
        have hname : e.1 = c := by simpa using List.find?_some he
        rw [← hname]
        exact .entry t e path s (List.mem_of_find?_eq_some he) (ih h)

/-- A name of a static tree is found as what it names. -/
theorem find_of_named (hstatic : Static t) (h : Named t path s) :
    find t path = some s := by
  induction h with
  | here t supported => exact if_pos supported
  | entry t e path s listed rest ih =>
      obtain ⟨-, -, hstatic'⟩ := hstatic.kept listed
      have hfind : t.kept.find? (fun x => x.1 = e.1) = some e := by
        cases hx : t.kept.find? fun x => x.1 = e.1 with
        | none =>
            have := List.find?_eq_none.1 hx e listed
            simp at this
        | some x =>
            obtain ⟨i, hi⟩ := List.mem_iff_getElem?.1 listed
            obtain ⟨j, hj⟩ := List.mem_iff_getElem?.1
              (List.mem_of_find?_eq_some hx)
            have hname : x.1 = e.1 := by simpa using List.find?_some hx
            have hij := hstatic.index_unique hi hj hname.symm
            rw [hij, hj] at hi
            exact hi
      rw [find, hfind]
      exact ih hstatic'

-- ====================================================== the attributes

/-- The names stand sorted in the node already. -/
theorem xattrNames_eq (xattrs : Xattrs) :
    (MetaFSBuilder.readXattrs xattrs).map Prod.fst = xattrNames xattrs := by
  have hpw : ((MetaFSBuilder.readXattrs xattrs).map Prod.fst).Pairwise
      (· ≤ ·) := by
    have htotal : Std.Total fun x y : Bytes × Bytes =>
        x.1 < y.1 ∨ x.1 = y.1 ∧ x.2 ≤ y.2 := by
      refine ⟨fun x y => ?_⟩
      rcases Std.lt_trichotomy x.1 y.1 with h | h | h
      · exact .inl (.inl h)
      · rcases List.le_total x.2 y.2 with h' | h'
        · exact .inl (.inr ⟨h, h'⟩)
        · exact .inr (.inr ⟨h.symm, h'⟩)
      · exact .inr (.inl h)
    have htrans : IsTrans (Bytes × Bytes) fun x y =>
        x.1 < y.1 ∨ x.1 = y.1 ∧ x.2 ≤ y.2 := by
      refine ⟨fun x y z hxy hyz => ?_⟩
      rcases hxy with hxy | ⟨hxy, hxy'⟩
      · rcases hyz with hyz | ⟨hyz, -⟩
        · exact .inl (List.lt_trans hxy hyz)
        · exact .inl (hyz ▸ hxy)
      · rcases hyz with hyz | ⟨hyz, hyz'⟩
        · exact .inl (hxy ▸ hyz)
        · exact .inr ⟨hxy.trans hyz, List.le_trans hxy' hyz'⟩
    refine List.pairwise_map.2 ((List.pairwise_insertionSort _ xattrs).imp
      fun {x y} h => ?_)
    rcases h with h | ⟨h, -⟩
    · exact Std.le_of_lt h
    · exact h ▸ Std.le_refl _
  have hsorted : (xattrNames xattrs).Pairwise (· ≤ ·) := by
    have htotal : Std.Total fun a b : Bytes => a ≤ b := ⟨List.le_total⟩
    have htrans : IsTrans Bytes fun a b => a ≤ b :=
      ⟨fun a b c => List.le_trans⟩
    exact List.pairwise_insertionSort _ _
  refine List.Perm.eq_of_pairwise (fun a b _ _ => List.le_antisymm) hpw
    hsorted ?_
  exact ((List.perm_insertionSort _ xattrs).map _).trans
    (List.perm_insertionSort _ _).symm

/-- Different names are in strictly ascending order. -/
theorem xattrNames_ascending {xattrs : Xattrs}
    (h : (xattrs.map Prod.fst).Nodup) :
    (xattrNames xattrs).Pairwise (· < ·) := by
  have htotal : Std.Total fun a b : Bytes => a ≤ b := ⟨List.le_total⟩
  have htrans : IsTrans Bytes fun a b => a ≤ b :=
    ⟨fun a b c => List.le_trans⟩
  have hnodup : (xattrNames xattrs).Nodup :=
    (List.perm_insertionSort _ _).nodup_iff.2 h
  exact ((List.pairwise_insertionSort _ _).and hnodup).imp
    fun ⟨hle, hne⟩ => Std.lt_of_le_of_ne hle hne

end TreeFs

end Distfs

/-
The mounted file system answers like the source tree.

# The two levels

`serve` is what happens on the side of the program: a request goes to its
callback, with the path spelled out and a buffer of FUSE, and what is in
the buffer afterwards goes back to the process. `TreeFs.answer` is what
should come back. `serve_answers` relates the two for one request, and
the session rule for any number of them.

# What it rests on

`Carries` is what an image has to say of the tree, and `Supplies` what a
data provider has to deliver: the bytes that the chunks hold, wherever it
gets them from. Neither mentions how image and chunks came about.
-/
import Distfs.Fuse.FileRead
import Distfs.Fuse.Readdir
import Distfs.Fuse.TreeFs
import Distfs.Lib.Session
import Distfs.Meta.NodeRecords
import Distfs.Meta.Symlinks

namespace Distfs

open SourceTree ChunkBuilder DataProvider MetaFSBuilder MetaFileSystem

namespace Fuse

open TreeFs

/-- `dp->read`, in a state of the data provider. -/
abbrev ReadAt (τ : Type) := τ → Nat → Nat → Option (ErrorCode × Bytes × τ)

/-- What is open, and the data provider. -/
structure Mount (τ : Type) where
  handles : List Nat
  provider : τ

/-- The string at `a`. -/
def cString (m : Mem) (a : Nat) : Bytes :=
  match m.strlen a with
  | none => []
  | some n => m.read a n

/-- The filler of FUSE: it copies the name, if the entry fits. -/
def fillDir (mfs : Mem) (fits : List Dirent → Dirent → Bool)
    (taken : List Dirent) (name : Nat) (stat : StatReply) (off : Int) :
    Bool × List Dirent :=
  let e : Dirent := { name := cString mfs name, stat := stat, next := off }
  if fits taken e then (false, taken ++ [e]) else (true, taken)

/-- What goes back of `distfs_getattr`. -/
def sentStat : Option (Int × Option StatReply) → Option FsReply
  | none => none
  | some (0, some st) => some (.stat st)
  | some (code, _) => some (.error code)

/-- What goes back of `distfs_readlink`: the string in the buffer. -/
def sentTarget (buff : Mem) :
    Option (Int × List Mem.Store) → Option FsReply
  | none => none
  | some (0, stores) => some (.target (cString (Mem.perform stores buff) 0))
  | some (code, _) => some (.error code)

/-- What goes back of `distfs_readdir`. -/
def sentEntries : Option (Int × List Dirent) → Option FsReply
  | none => none
  | some (0, taken) => some (.entries taken)
  | some (code, _) => some (.error code)

/-- What goes back of a call on extended attributes. -/
def sentXattr (size : Nat) (buff : Mem) :
    Option (Int × List Mem.Store) → Option FsReply
  | none => none
  | some (code, stores) =>
      if code < 0 then some (.error code)
      else if size = 0 then some (.length code.toNat)
      else some (.bytes ((Mem.perform stores buff).read 0 code.toNat))

section Serve

variable {τ : Type} (dp : ReadAt τ) (mfs buff : Mem)

/-- A request is answered by its callback. -/
def serve (s : Mount τ) : FsRequest → Option (FsReply × Mount τ)
  | .getattr path =>
      (sentStat (distfsGetattr mfs (pathOf path))).map fun r => (r, s)
  | .readlink path size =>
      (sentTarget buff (distfsReadlink mfs (pathOf path) size)).map
        fun r => (r, s)
  | .readdir path offset fits =>
      (sentEntries (distfsReaddir mfs (pathOf path) (fillDir mfs fits) []
        offset)).map fun r => (r, s)
  | .getxattr path name size =>
      (sentXattr size buff (distfsGetxattr mfs (pathOf path) name size)).map
        fun r => (r, s)
  | .listxattr path size =>
      (sentXattr size buff (distfsListattr mfs (pathOf path) size)).map
        fun r => (r, s)
  | .openFile path flags =>
      match distfsOpen mfs (pathOf path) flags with
      | none => none
      | some (0, some fh) => some (.handle s.handles.length,
          { s with handles := s.handles ++ [fh] })
      | some (code, _) => some (.error code, s)
  | .read handle size offset =>
      match s.handles[handle]? with
      | none => some (.error (-ebadf), s)
      | some fh =>
          match distfsRead dp s.provider mfs fh size offset with
          | none => none
          | some (n, bytes, provider) =>
              if n < 0 then some (.error n, { s with provider := provider })
              else some (.bytes (bytes.take n.toNat),
                { s with provider := provider })

end Serve

/-- The image says what is in the tree, and where in the chunks the files
are. -/
structure Carries (mfs : Mem) (chunks : UInt32 → Option Bytes)
    (t : SourceTree) (content : List Bytes → Bytes) : Prop where
  tree : At mfs usizeSize t
  records : ∀ path p s, Placed usizeSize t path p s → Records mfs p s
  files : ∀ path p, RegularAt t path p →
    Node.length mfs p = (content path).length
      ∧ Covers chunks (Node.dataOffset mfs p) (content path)
      ∧ Node.dataOffset mfs p + Node.length mfs p < 2 ^ 64

/-- The data provider delivers the bytes that the chunks hold, unless it
fails and says so. -/
def Supplies {τ : Type} (fails : Prop) (dp : ReadAt τ) (inv : τ → Prop)
    (chunks : UInt32 → Option Bytes) : Prop :=
  ∀ s a bs, inv s → Covers chunks a bs →
    ∃ err out s', dp s a bs.length = some (err, out, s') ∧ inv s'
      ∧ (err = .ok ∧ out = bs ∨ fails ∧ err ≠ .ok)

/-- What will do for an answer of the tree: the answer itself, or for a
read that the data provider fails, `EACCES`. -/
def Told (fails : Prop) (q : FsRequest) (r r' : FsReply) : Prop :=
  r = r' ∨ fails ∧ r = .error (-eacces)
    ∧ ∃ handle size offset, q = .read handle size offset

-- ========================================================== the pieces

variable {mfs m buff : Mem} {p a : Nat} {st : Stat} {s : SourceTree}

theorem cString_eq {bs : Bytes} (h : m.CStr a bs) (h0 : 0 ∉ bs)
    (hlen : bs.length < 2 ^ 64) : cString m a = bs := by
  have hread := congrArg (List.take bs.length) h
  rw [Mem.take_read, Nat.min_eq_left (Nat.le_succ _), List.take_left] at hread
  unfold cString
  rw [h.strlen h0 hlen]
  exact hread

/-- From 1970 on the stat comes back as it was. -/
theorem getStat_reply (h : StatAt m p st) (hvalid : st.Valid)
    (hmodern : 0 ≤ st.mtimeSec ∧ 0 ≤ st.ctimeSec) :
    getStat m p = st.reply := by
  obtain ⟨hmsec, hmnsec⟩ :=
    (split_time_iff hvalid.mtimeNsec hvalid.mtime).2 hmodern.1
  obtain ⟨hcsec, hcnsec⟩ :=
    (split_time_iff hvalid.ctimeNsec hvalid.ctime).2 hmodern.2
  rw [← h.mtimeNs] at hmsec hmnsec
  rw [← h.ctimeNs] at hcsec hcnsec
  have hmtime : (Node.mtimeNs m p / 1000000000,
      Node.mtimeNs m p % 1000000000)
      = (st.mtimeSec.toNat, st.mtimeNsec.toNat) := by
    rw [← hmsec, ← hmnsec]
    rfl
  have hctime : (Node.ctimeNs m p / 1000000000,
      Node.ctimeNs m p % 1000000000)
      = (st.ctimeSec.toNat, st.ctimeNsec.toNat) := by
    rw [← hcsec, ← hcnsec]
    rfl
  unfold getStat Stat.reply
  rw [hmtime, hctime, h.mode, h.uid, h.gid, h.size, h.blockCount,
    toInt64_toUint64 hvalid.size, toInt64_toUint64 hvalid.blocks]

/-- The walk along a path answers OK, or that there is nothing. -/
theorem follow_code (cs : List Bytes) : ∀ (offset : Nat) (r : ErrorCode × Nat),
    follow m offset cs = some r → r.1 = .ok ∨ r = (.notFound, 0) := by
  induction cs with
  | nil =>
      intro offset r h
      cases h
      exact .inl rfl
  | cons c cs ih =>
      intro offset r h
      rw [follow] at h
      split at h
      · cases h
      · split at h
        · cases h
          exact .inr rfl
        · exact ih _ r h

/-- An answer that fits is the number itself. -/
theorem answer_length {n : Nat} (h : n < 2 ^ 31) :
    toInt32 (uint32 (toUint64 (n : Int))) = (n : Int) := by
  rw [toUint64_of_lt (by omega)]
  exact (toInt32_eq_iff (by omega)).2 h

/-- What goes back is what the size protocol says, if the callback keeps
to it. -/
theorem sentXattr_sized {size : Nat} {bs : Bytes} {code : Int}
    {stores : List Mem.Store}
    (hlong : 0 < size → size < bs.length → code = -erange)
    (hfits : size = 0 ∨ bs.length ≤ size → code = bs.length)
    (hbytes : 0 < size → bs.length ≤ size →
      (Mem.perform stores buff).read 0 bs.length = bs) :
    sentXattr size buff (some (code, stores)) = some (sized size bs) := by
  unfold sentXattr sized
  simp only
  rcases Nat.eq_zero_or_pos size with hzero | hpos
  · rw [hfits (.inl hzero), if_neg (by omega), if_pos hzero, if_pos hzero]
    rfl
  · rw [if_neg (show ¬ size = 0 by omega), if_neg (show ¬ size = 0 by omega)]
    rcases Nat.lt_or_ge size bs.length with hlt | hle
    · rw [hlong hpos hlt, if_pos hlt, if_pos (by decide)]
    · rw [hfits (.inr hle), if_neg (by omega), if_neg (by omega),
        Int.toNat_natCast, hbytes hpos hle]

/-- `list_xattr` keeps to the size protocol, unless the first names of
some fill the buffer. -/
theorem listXattr_keeps {path : Bytes} {n size : Nat} {names : List Bytes}
    (hpath : getNodeOffset mfs path = some (.ok, n))
    (hnode : XattrNames mfs n names) (hends : ¬ EndsInside names size)
    (htotal : namesBody names < 2 ^ 63) :
    ∃ r, listXattr mfs path size = some r ∧ SizeProtocol names size r := by
  have hfrom := hnode.from_zero
  rw [listXattr_node hpath hnode]
  rcases Nat.lt_or_ge size (namesBody names) with hlt | hge
  · rcases Nat.eq_zero_or_pos size with rfl | hpos
    · rw [listXattrFrom_query names 0 0 0 hfrom, Nat.zero_add]
      exact ⟨_, rfl, (protocol_query_iff hlt).2 htotal⟩
    · obtain ⟨r, hr, hwithin, -, htoo⟩ :=
        listXattrFrom_cut names 0 size 0 0 hfrom hpos hlt
      rw [Nat.zero_add] at hwithin
      exact ⟨r, hr, (protocol_cut_iff hpos hlt hwithin).2 (htoo hends)⟩
  · rw [listXattrFrom_whole names 0 size 0 0 hfrom hge, Nat.zero_add]
    exact ⟨_, rfl, (protocol_whole_iff hge).2 htotal⟩

/-- The attributes of a node are stored in ascending order. -/
theorem ascending_readXattrs {xattrs : Xattrs} {st : Stat} {target : Bytes}
    (hfits : NodeFits st xattrs target) :
    ((readXattrs xattrs).map Prod.fst).Pairwise (· < ·)
      ∧ (∀ x ∈ readXattrs xattrs, 0 ∉ x.1)
      ∧ (readXattrs xattrs).length ≤ 2 ^ 30 + 1 := by
  refine ⟨?_, fun x hx => ?_, ?_⟩
  · rw [xattrNames_eq]
    exact xattrNames_ascending hfits.distinct
  · exact hfits.names x ((List.perm_insertionSort _ xattrs).mem_iff.1 hx)
  · rw [length_readXattrs]
    exact hfits.few

-- ===================================================== the directory

/-- The entry as the filler copies it. -/
def copied (mfs : Mem) (e : DirEntry) : Dirent :=
  { name := cString mfs e.name, stat := e.stat, next := e.cookie }

theorem feed_fillDir (fits : List Dirent → Dirent → Bool)
    (es : List DirEntry) : ∀ taken,
    feed (fillDir mfs fits) taken es
      = takeFitting fits taken (es.map (copied mfs)) := by
  induction es with
  | nil => exact fun taken => rfl
  | cons e es ih =>
      intro taken
      rw [feed, List.map_cons, takeFitting, fillDir]
      by_cases hfits : fits taken (copied mfs e) = true
      · rw [if_pos hfits]
        refine Eq.trans ?_ (ih (taken ++ [copied mfs e]))
        unfold copied at hfits ⊢
        simp only [hfits, if_true, Bool.false_eq_true, if_false]
      · rw [if_neg hfits]
        unfold copied at hfits
        simp only [hfits, Bool.false_eq_true, if_false, if_true]

section Sim

variable {chunks : UInt32 → Option Bytes} {t : SourceTree}
  {content : List Bytes → Bytes} {path : List Bytes}

/-- The names and stats of a directory's entries come back. -/
theorem listing_dirents (hc : Carries mfs chunks t content)
    (hm : Mountable t) (hplaced : Placed usizeSize t path p s)
    (hdir : s.isDir = true) :
    (listing mfs p).map (copied mfs) = dirents s := by
  have hstatic := hm.static.named hplaced.named
  obtain ⟨⟨mode, hrecords⟩, -⟩ := (hc.tree.placed hplaced).records hdir
  have hlength := hrecords.node.length
  rw [List.length_map] at hlength
  refine List.ext_getElem? fun i => ?_
  rw [List.getElem?_map, dirents, List.getElem?_mapIdx, listing, hlength,
    List.getElem?_map]
  rcases Nat.lt_or_ge i s.kept.length with hi | hi
  · obtain ⟨e, he⟩ : ∃ e, s.kept[i]? = some e :=
      ⟨_, List.getElem?_eq_getElem hi⟩
    have hmem := List.mem_of_getElem? he
    obtain ⟨hname, hsup, -⟩ := hstatic.kept hmem
    have hi' : (s.kept.map Prod.fst)[i]? = some e.1 := by
      rw [List.getElem?_map, he]
      rfl
    obtain ⟨-, hend, hstr⟩ := hrecords.node.name i e.1 hi'
    -- the node of the entry
    have hchild := hrecords.child i e he
    rw [hsup, if_pos rfl] at hchild
    have hplaced' := hplaced.append (placed_cons_iff.2
      ⟨i, e, he, rfl, .here (childPos p s.attrs s.kept i) e.2 hsup⟩)
    have hrec := hc.records _ _ _ hplaced'
    have hstat : getStat mfs (childPos p s.attrs s.kept i)
        = statReply e.2 := by
      cases hnode : e.2 with
      | gone =>
          rw [hnode] at hsup
          cases hsup
      | node st xattrs target entries =>
          rw [hnode] at hrec hplaced'
          have hfits := hm.fits _ st xattrs target entries hplaced'.named
          exact getStat_reply hrec.1 hfits.valid hfits.modern
    have hstring : cString mfs
        (Entry.nameOffset mfs (direntsPos p s.attrs) i) = e.1 := by
      have hnameOffset := Mem.readLe_lt mfs
        (direntsPos p s.attrs + entrySize * i) 8
      refine cString_eq (hstr hname.2.1) hname.2.1 ?_
      have hshort := namesLen_eq (s.kept.map Prod.fst)
      have hdata := Node.dataOffset_lt mfs p
      have hextent := hplaced'.within
      obtain ⟨hkept, -⟩ := @childPos_within p i s e he
      have hhead : headEnd p s.attrs s.kept
          = direntsPos p s.attrs + namesLen (s.kept.map Prod.fst) := rfl
      have hchildLt := Mem.readLe_lt mfs
        (direntsPos p s.attrs + entrySize * i + 8) 8
      have hchildEq : mfs.readLe (direntsPos p s.attrs + entrySize * i + 8) 8
          = childPos p s.attrs s.kept i := hchild
      omega
    rw [List.getElem?_range hi, he]
    simp only [Option.map_some, Option.some.injEq]
    unfold copied dirEntry
    rw [hrecords.node.dataOffset, hchild, hstat, hstring]
  · rw [List.getElem?_eq_none hi,
      List.getElem?_eq_none (by rw [List.length_range]; exact hi)]
    rfl

-- ========================================================= the paths

/-- A path leads to the node of its file, or to nothing. -/
theorem lookup (hc : Carries mfs chunks t content) (hm : Mountable t)
    (hpath : ∀ c ∈ path, Component c) :
    (∃ s p, find t path = some s ∧ Placed usizeSize t path p s
        ∧ getNodeOffset mfs (pathOf path) = some (.ok, p))
      ∨ find t path = none
        ∧ getNodeOffset mfs (pathOf path) = some (.notFound, 0) := by
  obtain ⟨r, hr, hrp⟩ := (resolves_of_plain hc.tree hm.supported hm.static
    hm.plain).lookup path hpath
  have hfollow := hr
  rw [getNodeOffset_pathOf hpath] at hfollow
  rcases follow_code path usizeSize r hfollow with hok | hmissing
  · obtain ⟨code, p⟩ := r
    rw [show code = .ok from hok] at hr hrp
    obtain ⟨s, hplaced⟩ := (hrp p).1 rfl
    exact .inl ⟨s, p, find_of_named hm.static hplaced.named, hplaced, hr⟩
  · rw [hmissing] at hr hrp
    refine .inr ⟨?_, hr⟩
    cases hfind : find t path with
    | none => rfl
    | some s =>
        obtain ⟨p, hplaced⟩ := (find_named hfind).placed usizeSize
        have := (hrp p).2 ⟨s, hplaced⟩
        cases this

/-- What is known of the node that a path leads to. -/
theorem node_of_placed (hc : Carries mfs chunks t content)
    (hm : Mountable t) (hplaced : Placed usizeSize t path p s) :
    ∃ st xattrs target entries, s = .node st xattrs target entries
      ∧ StatAt mfs p st ∧ XattrsAt mfs p (readXattrs xattrs)
      ∧ NodeFits st xattrs target := by
  have hrec := hc.records path p s hplaced
  cases s with
  | gone => cases hplaced.within.1
  | node st xattrs target entries =>
      exact ⟨st, xattrs, target, entries, rfl, hrec.1, hrec.2,
        hm.fits path st xattrs target entries hplaced.named⟩

-- ======================================================= the answers

section Answers

variable (hc : Carries mfs chunks t content)
  (hm : Mountable t)

include hc hm

theorem sent_getattr (hpath : ∀ c ∈ path, Component c) :
    sentStat (distfsGetattr mfs (pathOf path))
      = some (atNode t path fun s => .stat (statReply s)) := by
  unfold distfsGetattr getPathStat atNode
  rcases lookup hc hm hpath with ⟨s, p, hfind, hplaced, hr⟩ | ⟨hfind, hr⟩
  · obtain ⟨st, xattrs, target, entries, rfl, hstat, -, hfits⟩ :=
      node_of_placed hc hm hplaced
    rw [hr, hfind]
    simp only
    rw [getStat_reply hstat hfits.valid hfits.modern]
    rfl
  · rw [hr, hfind]
    rfl

theorem sent_readlink {size : Nat} (hpath : ∀ c ∈ path, Component c)
    (hsize : size < 2 ^ 64) (hpos : 0 < size)
    (hfit : ∀ s target, find t path = some s →
      linkTarget s = some target → target.length + 2 ≤ size) :
    sentTarget buff (distfsReadlink mfs (pathOf path) size)
      = some (atNode t path TreeFs.readlink) := by
  unfold distfsReadlink atNode
  rcases lookup hc hm hpath with ⟨s, p, hfind, hplaced, hr⟩ | ⟨hfind, hr⟩
  · obtain ⟨st, xattrs, target, entries, rfl, hstat, -, hfits⟩ :=
      node_of_placed hc hm hplaced
    rw [hfind]
    unfold TreeFs.readlink linkTarget
    simp only
    by_cases hlnk : sIsLnk st.mode.toNat = true
    · obtain ⟨h0, hlen⟩ := hfits.link
      have hname : linkName target = target := by
        rw [linkName, List.take_of_length_le hlen,
          List.takeWhile_eq_self_iff]
        intro b hb
        simpa using fun heq : b = 0 => h0 (heq ▸ hb)
      have hmax : pathMax = 4096 := rfl
      have hlink : LinkAt mfs p target := by
        cases hc.tree.placed hplaced with
        | skip _ _ unsupported =>
            have := hplaced.within.1
            rw [unsupported] at this
            cases this
        | file _ _ _ _ _ isReg mode =>
            rw [(not_lnk_of_reg isReg).1] at hlnk
            cases hlnk
        | dir _ _ _ _ _ isDir records =>
            rw [(not_lnk_reg_of_dir isDir).1] at hlnk
            cases hlnk
        | link _ _ _ _ _ isLnk mode dataOffset hstr =>
            rw [hname] at hstr
            exact ⟨by rw [mode]; exact isLnk, by rw [dataOffset]; exact hstr,
              h0, by omega⟩
      have hroom := hfit _ target hfind (if_pos hlnk)
      obtain ⟨r, hsym, hterm, -⟩ :=
        getSymlink_terminated hr hlink hpos hsize
      have hstr := hterm.2 hroom buff
      rw [List.take_of_length_le (by omega)] at hstr
      have hspec := getSymlink_spec hr hlink hpos hsize
      rw [hsym, Option.some.injEq] at hspec
      rw [hsym, if_pos hlnk]
      have hstring := cString_eq hstr h0 (by omega)
      rw [hspec] at hstring ⊢
      rw [if_neg (by omega)]
      exact congrArg (fun name => some (FsReply.target name)) hstring
    · have hsym : getSymlink mfs (pathOf path) size = some (.badType, []) := by
        unfold getSymlink
        rw [hr]
        simp only
        rw [hstat.mode, if_pos (by simpa using hlnk)]
      rw [hsym, if_neg hlnk]
      rfl
  · have hsym : getSymlink mfs (pathOf path) size
        = some (.notFound, []) := by
      unfold getSymlink
      rw [hr]
    rw [hsym, hfind]
    rfl

theorem sent_readdir {offset : Nat} {fits : List Dirent → Dirent → Bool}
    (hpath : ∀ c ∈ path, Component c)
    (hoffset : ∀ s, find t path = some s → offset ≤ s.kept.length) :
    sentEntries (distfsReaddir mfs (pathOf path) (fillDir mfs fits) [] offset)
      = some (atNode t path (TreeFs.readdir offset fits)) := by
  unfold atNode
  rcases lookup hc hm hpath with ⟨s, p, hfind, hplaced, hr⟩ | ⟨hfind, hr⟩
  · have hat := hc.tree.placed hplaced
    obtain ⟨hisDir, -⟩ := hat.kind hplaced.within.1
    rw [hfind]
    unfold TreeFs.readdir
    simp only
    cases hdir : s.isDir with
    | true =>
        obtain ⟨⟨mode, hrecords⟩, -⟩ := hat.records hdir
        have hlength := hrecords.node.length
        rw [List.length_map] at hlength
        have hfew := (hm.plain path s hplaced.named).1
        have hk := hoffset s hfind
        rw [distfsReaddir_feed hr (hisDir.trans hdir) (by omega) _ _
          (by omega), feed_fillDir, List.map_drop,
          listing_dirents hc hm hplaced hdir]
        rfl
    | false =>
        unfold distfsReaddir getDir
        rw [hr]
        simp only
        rw [hisDir, hdir]
        rfl
  · unfold distfsReaddir getDir
    rw [hr, hfind]
    rfl

theorem sent_getxattr {name : Bytes} {size : Nat}
    (hpath : ∀ c ∈ path, Component c) (hname : 0 ∉ name) :
    sentXattr size buff (distfsGetxattr mfs (pathOf path) name size)
      = some (atNode t path (TreeFs.getxattr name size)) := by
  unfold distfsGetxattr atNode
  rcases lookup hc hm hpath with ⟨s, p, hfind, hplaced, hr⟩ | ⟨hfind, hr⟩
  · obtain ⟨st, xattrs, target, entries, rfl, -, hat, hfits⟩ :=
      node_of_placed hc hm hplaced
    obtain ⟨hasc, h0, hfew⟩ := ascending_readXattrs hfits
    obtain ⟨r, hget, hstored, hnone⟩ :=
      @getXattr_spec mfs (pathOf path) name p size _ hr hat hasc h0 hfew hname
    have hmem : ∀ x : Bytes × Bytes, x ∈ readXattrs xattrs ↔ x ∈ xattrs :=
      fun x => (List.perm_insertionSort _ xattrs).mem_iff
    rw [hfind, hget]
    unfold TreeFs.getxattr
    simp only
    rw [show (SourceTree.node st xattrs target entries).attrs = xattrs
      from rfl]
    cases hx : xattrs.find? fun x => x.1 = name with
    | none =>
        rw [hnone fun value hvalue => ?_]
        · rfl
        · have := List.find?_eq_none.1 hx _ ((hmem _).1 hvalue)
          simp at this
    | some x =>
        obtain ⟨name', value⟩ := x
        have hname' : name' = name := by simpa using List.find?_some hx
        subst hname'
        have hin := List.mem_of_find?_eq_some hx
        have hshort := hfits.short _ hin
        have hpadded := (stored_eq_iff value).2 (hfits.padded _ hin)
        rw [hstored value ((hmem _).2 hin), hpadded, reply]
        have hanswer := answer_length hshort
        show _ = some (sized size value)
        rcases Nat.eq_zero_or_pos size with hzero | hpos
        · rw [if_neg (by omega)]
          simp only [lengthAnswer, hanswer]
          exact sentXattr_sized (fun h => by omega) (fun _ => rfl)
            fun h => by omega
        · rw [if_pos hpos]
          rcases Nat.lt_or_ge size value.length with hlt | hle
          · rw [if_pos hlt]
            exact sentXattr_sized (fun _ _ => rfl) (fun h => by omega)
              fun _ h => by omega
          · rw [if_neg (by omega)]
            simp only [lengthAnswer, hanswer]
            exact sentXattr_sized (fun _ h => by omega) (fun _ => rfl)
              fun _ _ => Mem.read_write_self buff 0 value
  · unfold getXattr
    rw [hr, hfind]
    rfl

theorem sent_listxattr {size : Nat} (hpath : ∀ c ∈ path, Component c)
    (hends : ∀ s, find t path = some s →
      ¬ EndsInside (xattrNames s.attrs) size) :
    sentXattr size buff (distfsListattr mfs (pathOf path) size)
      = some (atNode t path (TreeFs.listxattr size)) := by
  unfold distfsListattr atNode
  rcases lookup hc hm hpath with ⟨s, p, hfind, hplaced, hr⟩ | ⟨hfind, hr⟩
  · obtain ⟨st, xattrs, target, entries, rfl, -, hat, hfits⟩ :=
      node_of_placed hc hm hplaced
    obtain ⟨-, h0, hfew⟩ := ascending_readXattrs hfits
    have hnames := xattrNames_of_at hat (by omega) h0
    rw [xattrNames_eq] at hnames
    have hbody : namesBody (xattrNames xattrs)
        = namesBody (xattrs.map Prod.fst) :=
      ((List.perm_insertionSort _ _).map _).sum_nat
    have htotal := hfits.listed
    rw [← hbody] at htotal
    have hlen := length_terminated (xattrNames xattrs)
    obtain ⟨r, hlist, hkeeps⟩ :=
      listXattr_keeps hr hnames (hends _ hfind) (by omega)
    have hanswer := answer_length htotal
    rw [hfind, hlist]
    unfold TreeFs.listxattr
    simp only
    rw [show (SourceTree.node st xattrs target entries).attrs = xattrs
      from rfl]
    rcases Nat.eq_zero_or_pos size with rfl | hpos
    · obtain ⟨herr, hlength, -⟩ := hkeeps.query rfl
      rw [herr]
      simp only [lengthAnswer, hlength, hanswer]
      exact sentXattr_sized (fun h => by omega) (fun _ => by rw [hlen])
        fun h => by omega
    · rcases Nat.lt_or_ge size (namesBody (xattrNames xattrs))
        with hlt | hle
      · rw [hkeeps.tooLong hpos hlt]
        exact sentXattr_sized (fun _ _ => rfl) (fun h => by omega)
          fun _ h => by omega
      · obtain ⟨herr, hlength, hbytes⟩ := hkeeps.whole hle
        rw [herr]
        simp only [lengthAnswer, hlength, hanswer]
        refine sentXattr_sized (fun _ h => by omega) (fun _ => by rw [hlen])
          fun _ _ => ?_
        rw [hlen]
        exact hbytes buff
  · unfold listXattr
    rw [hr, hfind]
    rfl

end Answers

-- ========================================================== a file

theorem Supplies.distfsRead {τ : Type} {fails : Prop} {dp : ReadAt τ}
    {inv : τ → Prop} (hdp : Supplies fails dp inv chunks)
    (hc : Carries mfs chunks t content)
    {x : τ} (hx : inv x) (hp : RegularAt t path p) {size offset : Nat}
    (hoffset : offset < 2 ^ 63)
    (hin : offset ≤ (content path).length ∨ size = 0)
    (hint : min ((content path).length - offset) size < 2 ^ 31) :
    ∃ n out x', Fuse.distfsRead dp x mfs p size offset = some (n, out, x')
      ∧ inv x'
      ∧ (n = (((content path).drop offset).take size).length
          ∧ out = ((content path).drop offset).take size
        ∨ fails ∧ n = -eacces) := by
  obtain ⟨hlen, hcovers, hfits⟩ := hc.files path p hp
  obtain ⟨s, hplaced, hs⟩ := hp
  have hreg : sIsReg (Node.mode mfs p) = true := by
    rw [((hc.tree.placed hplaced).kind hplaced.within.1).2]
    exact hs
  have hlt := Node.length_lt mfs p
  have hslice : (((content path).drop offset).take size).length
      = min ((content path).length - offset) size := by
    rw [List.length_take, List.length_drop, Nat.min_comm]
  -- what is asked for is what is left of the file
  have hn : min (usize (Node.length mfs p + (2 ^ 64 - offset))) size
      = (((content path).drop offset).take size).length := by
    rw [hslice]
    rcases hin with hle | hzero
    · rw [usize_sub (by omega) hlt, hlen]
    · omega
  have hat : Covers chunks (usize (Node.dataOffset mfs p + offset))
      (((content path).drop offset).take size) := by
    intro i hi
    have hbefore : offset < (content path).length := by omega
    rw [usize_of_lt (by omega)]
    obtain ⟨c, hc, hbyte⟩ := hcovers (offset + i) (by omega)
    rw [List.getElem?_take_of_lt (by omega), List.getElem?_drop,
      Nat.add_assoc]
    exact ⟨c, hc, hbyte⟩
  obtain ⟨err, out, x', hread, hx', hout⟩ := hdp x _ _ hx hat
  unfold Fuse.distfsRead getFilePosition
  rw [hreg, toUint64_of_lt hoffset]
  simp only [Bool.true_eq_false, if_false]
  rw [hn, hread]
  rcases hout with ⟨rfl, rfl⟩ | ⟨hfails, herr⟩
  · refine ⟨_, _, x', rfl, hx', .inl ⟨?_, rfl⟩⟩
    exact (toInt32_eq_iff (by omega)).2 (by omega)
  · refine ⟨-eacces, out, x', ?_, hx', .inr ⟨hfails, rfl⟩⟩
    cases err with
    | ok => exact absurd rfl herr
    | _ => rfl

-- ======================================================= the session

/-- The handles are nodes of their paths, and the data provider is in a
state in which it delivers. -/
structure Sim {τ : Type} (t : SourceTree) (inv : τ → Prop) (mount : Mount τ)
    (handles : List (List Bytes)) : Prop where
  provider : inv mount.provider
  length : mount.handles.length = handles.length
  node : ∀ (i fh : Nat) (path : List Bytes), mount.handles[i]? = some fh →
    handles[i]? = some path → ∃ s, Placed usizeSize t path fh s

variable {τ : Type} {fails : Prop} {dp : ReadAt τ} {inv : τ → Prop}

/-- A handle more. -/
theorem Sim.opened {mount : Mount τ} {handles : List (List Bytes)}
    (h : Sim t inv mount handles) (hplaced : Placed usizeSize t path p s) :
    Sim t inv { mount with handles := mount.handles ++ [p] }
      (handles ++ [path]) := by
  refine ⟨h.provider, by simp [h.length], fun i fh path' hfh hpath' => ?_⟩
  rcases Nat.lt_or_ge i handles.length with hi | hi
  · rw [List.getElem?_append_left (by rw [h.length]; exact hi)] at hfh
    rw [List.getElem?_append_left hi] at hpath'
    exact h.node i fh path' hfh hpath'
  · rw [List.getElem?_append_right (by rw [h.length]; exact hi), h.length]
      at hfh
    rw [List.getElem?_append_right hi] at hpath'
    cases hk : i - handles.length with
    | zero =>
        rw [hk] at hfh hpath'
        cases hfh
        cases hpath'
        exact ⟨s, hplaced⟩
    | succ k =>
        rw [hk] at hfh
        cases hfh

/-- An answer that changes nothing, and is the one of the tree. -/
theorem served_same {mount : Mount τ} {handles : List (List Bytes)}
    (hsim : Sim t inv mount handles) {q : FsRequest} {r : FsReply}
    {x : Option FsReply} (hx : x = some r) :
    ∃ r' mount', x.map (fun r => (r, mount)) = some (r', mount')
      ∧ Told fails q r' r ∧ Sim t inv mount' handles := by
  rw [hx]
  exact ⟨r, mount, rfl, .inl rfl, hsim⟩

/-- Each admitted request is answered as the source tree would. -/
theorem serve_answers (hc : Carries mfs chunks t content) (hm : Mountable t)
    (hdp : Supplies fails dp inv chunks) :
    Session.Refines (serve dp mfs buff) (answer t content) (Sim t inv)
      (Allowed t content) (Told fails) := by
  intro mount handles q hsim hq
  cases q with
  | getattr path => exact served_same hsim (sent_getattr hc hm hq)
  | readlink path size =>
      obtain ⟨hpath, hsize, hpos, hfit⟩ := hq
      exact served_same hsim (sent_readlink hc hm hpath hsize hpos hfit)
  | readdir path offset fits =>
      obtain ⟨hpath, hoffset⟩ := hq
      exact served_same hsim (sent_readdir hc hm hpath hoffset)
  | getxattr path name size =>
      obtain ⟨hpath, hname⟩ := hq
      exact served_same hsim (sent_getxattr hc hm hpath hname)
  | listxattr path size =>
      obtain ⟨hpath, hends⟩ := hq
      exact served_same hsim (sent_listxattr hc hm hpath hends)
  | openFile path flags =>
      unfold serve distfsOpen answer getOffset
      by_cases hwrite : flags &&& oWrite ≠ 0
      · simp only [if_pos hwrite]
        exact ⟨_, mount, rfl, .inl rfl, hsim⟩
      · simp only [if_neg hwrite]
        rcases lookup hc hm hq with ⟨s, p, hfind, hplaced, hr⟩ | ⟨hfind, hr⟩
        · rw [hr, hfind]
          refine ⟨_, _, rfl, .inl ?_, hsim.opened hplaced⟩
          simp only [hsim.length]
        · rw [hr, hfind]
          exact ⟨_, mount, rfl, .inl rfl, hsim⟩
  | read handle size offset =>
      obtain ⟨hoffset, hin⟩ := hq
      unfold serve answer
      simp only
      cases hpath : handles[handle]? with
      | none =>
          have hnone := List.getElem?_eq_none_iff.1 hpath
          rw [List.getElem?_eq_none (by rw [hsim.length]; exact hnone)]
          exact ⟨_, mount, rfl, .inl rfl, hsim⟩
      | some path =>
          obtain ⟨hlt, -⟩ := List.getElem?_eq_some_iff.1 hpath
          obtain ⟨fh, hfh⟩ : ∃ fh, mount.handles[handle]? = some fh :=
            ⟨_, List.getElem?_eq_getElem (by rw [hsim.length]; exact hlt)⟩
          obtain ⟨s, hplaced⟩ := hsim.node handle fh path hfh hpath
          have hfind := find_of_named hm.static hplaced.named
          obtain ⟨hstart, hint⟩ := hin path hpath
          rw [hfh]
          simp only [atNode, hfind, readFile]
          cases hreg : s.isReg with
          | true =>
              obtain ⟨n, out, x', hread, hx', hout⟩ := hdp.distfsRead hc
                hsim.provider ⟨s, hplaced, hreg⟩ hoffset hstart hint
              rw [hread]
              simp only
              rcases hout with ⟨rfl, rfl⟩ | ⟨hfails, rfl⟩
              · rw [if_neg (by omega), Int.toNat_natCast, List.take_length]
                exact ⟨_, _, rfl, .inl rfl, hx', hsim.length, hsim.node⟩
              · exact ⟨_, _, rfl, .inr ⟨hfails, rfl, _, _, _, rfl⟩, hx',
                  hsim.length, hsim.node⟩
          | false =>
              have hmode : sIsReg (Node.mode mfs fh) = false := by
                rw [((hc.tree.placed hplaced).kind hplaced.within.1).2]
                exact hreg
              unfold Fuse.distfsRead getFilePosition
              rw [hmode]
              exact ⟨_, mount, rfl, .inl rfl, hsim⟩

end Sim

end Fuse

end Distfs

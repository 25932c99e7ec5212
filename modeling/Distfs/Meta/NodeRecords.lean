/-
The image says of every node what the system calls said of it.

# One node

`Records` is what the visit of a node stores in it: the fields of
`set_stat`, and the extended attributes in the order of `read_xattrs`.
It rests on the bytes of the node up to `length` and on those of the
attributes (`Records.congr`), and on no others.

# All nodes

Nothing that the scan writes later goes there (`scanDfs_records`): the
visits only add, and what the loop of a directory fills in are offsets of
its entries, which lie behind the attributes. Nor does `create_chunks`,
which only writes to slack (`records_of_build`).
-/
import Distfs.Meta.Built
import Distfs.Meta.Stats
import Distfs.Meta.Vanished
import Distfs.Meta.Xattrs

namespace Distfs

open SourceTree

-- ========================================================== the fields

/-- The node at `p` has the fields that `set_stat` stores. -/
structure StatAt (m : Mem) (p : Nat) (st : Stat) : Prop where
  mode : Node.mode m p = st.mode.toNat
  uid : Node.uid m p = st.uid.toNat
  gid : Node.gid m p = st.gid.toNat
  size : Node.size m p = toUint64 st.size
  blockCount : Node.blockCount m p = toUint64 st.blocks
  ctimeNs : Node.ctimeNs m p
    = toUint64 (st.ctimeNsec + st.ctimeSec * 1000000000)
  mtimeNs : Node.mtimeNs m p
    = toUint64 (st.mtimeNsec + st.mtimeSec * 1000000000)

variable {m m' : Mem} {p : Nat} {st : Stat} {xattrs : Xattrs}

theorem statAt_setStat (st : Stat) (m : Mem) (p : Nat) :
    StatAt (MetaFSBuilder.setStat st m p) p st :=
  { mode := MetaFSBuilder.mode_setStat st m p
    uid := MetaFSBuilder.uid_setStat st m p
    gid := MetaFSBuilder.gid_setStat st m p
    size := MetaFSBuilder.size_setStat st m p
    blockCount := MetaFSBuilder.blockCount_setStat st m p
    ctimeNs := MetaFSBuilder.ctimeNs_setStat st m p
    mtimeNs := MetaFSBuilder.mtimeNs_setStat st m p }

theorem StatAt.congr (h : StatAt m p st)
    (heq : ∀ a, p ≤ a → a < p + 48 → m a = m' a) : StatAt m' p st := by
  have hread : ∀ a k, p ≤ a → a + k ≤ p + 48 →
      m'.readLe a k = m.readLe a k := fun a k hlo hhi =>
    (Mem.readLe_congr fun i hilo hihi => heq i (by omega) (by omega)).symm
  exact
    { mode := (hread p 4 (by omega) (by omega)).trans h.mode
      uid := (hread (p + 4) 4 (by omega) (by omega)).trans h.uid
      gid := (hread (p + 8) 4 (by omega) (by omega)).trans h.gid
      size := (hread (p + 16) 8 (by omega) (by omega)).trans h.size
      blockCount :=
        (hread (p + 24) 8 (by omega) (by omega)).trans h.blockCount
      ctimeNs := (hread (p + 40) 8 (by omega) (by omega)).trans h.ctimeNs
      mtimeNs := (hread (p + 32) 8 (by omega) (by omega)).trans h.mtimeNs }

/-- `get_stat` tells the `struct stat` if and only if neither time is
before 1970. -/
theorem StatAt.told_iff (h : StatAt m p st) (hvalid : st.Valid) :
    st.Told (MetaFileSystem.getStat m p)
      ↔ 0 ≤ st.mtimeSec ∧ 0 ≤ st.ctimeSec := by
  have hmtime := split_time_iff hvalid.mtimeNsec hvalid.mtime
  have hctime := split_time_iff hvalid.ctimeNsec hvalid.ctime
  rw [← h.mtimeNs] at hmtime
  rw [← h.ctimeNs] at hctime
  rw [← hmtime, ← hctime]
  constructor
  · exact fun htold => ⟨htold.mtime, htold.ctime⟩
  · rintro ⟨hm, hc⟩
    refine ⟨h.mode, h.uid, h.gid, ?_, ?_, hm, hc, ?_⟩
    · unfold MetaFileSystem.getStat
      rw [h.size, toInt64_toUint64 hvalid.size]
    · unfold MetaFileSystem.getStat
      rw [h.blockCount, toInt64_toUint64 hvalid.blocks]
    · exact ⟨Nat.mod_lt _ (by omega), Nat.mod_lt _ (by omega)⟩

-- ======================================================== the node

/-- The node at `p` holds what was found of the tree's root. -/
def Records (m : Mem) (p : Nat) : SourceTree → Prop
  | .gone => True
  | .node st xattrs _ _ =>
      StatAt m p st ∧ XattrsAt m p (MetaFSBuilder.readXattrs xattrs)

theorem Records.congr {s : SourceTree} (h : Records m p s)
    (hnode : ∀ a, p ≤ a → a < p + 56 → m a = m' a)
    (hattrs : ∀ a, p + nodeSize ≤ a → a < direntsPos p s.attrs →
      m a = m' a) : Records m' p s := by
  cases s with
  | gone => trivial
  | node st xattrs target entries =>
      have hlen := MetaFSBuilder.xattrsLen_readXattrs xattrs
      have hpos : direntsPos p (SourceTree.node st xattrs target
          entries).attrs = p + nodeSize + xattrsLen xattrs := rfl
      obtain ⟨hstat, hxattrs⟩ := h
      refine ⟨hstat.congr fun a hlo hhi => hnode a hlo (by omega),
        hxattrs.congr (fun a hlo hhi => hnode a (by omega) (by omega))
          fun a hlo hhi => hattrs a hlo (by omega)⟩

namespace MetaFSBuilder

variable {heap : Nat → Mem} {b b' : MetaFSBuilder} {n : Nat}

theorem statAt_addFile (hadd : b.addFile heap st xattrs = some (b', n)) :
    StatAt b'.data n st := by
  unfold addFile at hadd
  split at hadd
  · cases hadd
  · next b₁ hreserve =>
    have hnode : nodeSize = 72 := rfl
    cases hadd
    refine (statAt_setStat st b₁.data b₁.currentPos).congr
      fun a hlo hhi => ?_
    obtain ⟨-, hout, -⟩ := addXattrs_spec xattrs (Node.setXattrsCount
      (setStat st b₁.data b₁.currentPos) b₁.currentPos
      (uint32 xattrs.length)) (b₁.currentPos + nodeSize)
    exact ((hout a (by omega)).trans
      (Node.setXattrsCount_outside (by omega))).symm

theorem statAt_addLink {target : Bytes}
    (hadd : b.addLink heap st target xattrs = some (b', n)) :
    StatAt b'.data n st := by
  unfold addLink at hadd
  simp only at hadd
  split at hadd
  · cases hadd
  · next b₁ hreserve =>
    have hnode : nodeSize = 72 := rfl
    rw [Option.some.injEq, Prod.mk.injEq] at hadd
    obtain ⟨rfl, rfl⟩ := hadd
    obtain ⟨hend, hout, -⟩ := addXattrs_spec xattrs (Node.setXattrsCount
      (setStat st b₁.data b₁.currentPos) b₁.currentPos
      (uint32 xattrs.length)) (b₁.currentPos + nodeSize)
    refine (statAt_setStat st b₁.data b₁.currentPos).congr
      fun a hlo hhi => ?_
    simp only
    rw [Node.setDataOffset_outside (by omega),
      Mem.write_outside _ (by omega), hout a (by omega),
      Node.setXattrsCount_outside (by omega)]

theorem statAt_addDir {names : List Bytes} {dirents : Nat}
    (hadd : b.addDir heap st names xattrs = some (b', n, dirents)) :
    StatAt b'.data n st := by
  unfold addDir at hadd
  split at hadd
  · cases hadd
  · next b₁ hreserve =>
    have hnode : nodeSize = 72 := rfl
    simp only [Option.some.injEq, Prod.mk.injEq] at hadd
    obtain ⟨rfl, rfl, -⟩ := hadd
    obtain ⟨hend, hout, -⟩ := addXattrs_spec xattrs (Node.setXattrsCount
      (Node.setLength (setStat st b₁.data b₁.currentPos) b₁.currentPos
        names.length) b₁.currentPos (uint32 xattrs.length))
      (b₁.currentPos + nodeSize)
    rw [hend]
    obtain ⟨-, hnames, -⟩ := addNamesFrom_spec (b₁.currentPos + nodeSize
      + xattrsLen xattrs) names 0 (Node.setDataOffset (addXattrs xattrs
        (Node.setXattrsCount (Node.setLength (setStat st b₁.data
          b₁.currentPos) b₁.currentPos names.length) b₁.currentPos
          (uint32 xattrs.length)) (b₁.currentPos + nodeSize)).1
        b₁.currentPos (b₁.currentPos + nodeSize + xattrsLen xattrs))
      (b₁.currentPos + nodeSize + xattrsLen xattrs
        + entrySize * names.length) (by rw [entrySize]; omega)
    refine (statAt_setStat st b₁.data b₁.currentPos).congr
      fun a hlo hhi => ?_
    simp only
    rw [hnames a (by omega) (by omega),
      Node.setDataOffset_outside (by omega), hout a (by omega),
      Node.setXattrsCount_outside (by omega),
      Node.setLength_outside (by omega)]

-- ======================================================== the scan

/-- A visit that completes writes as far as `extent` says. -/
theorem scanDfs_extends {t : SourceTree} (hfits : b.currentPos ≤ b.dataSize.1)
    (hscan : scanDfs heap t b = some (b', n)) :
    Extends b b' t.extent := by
  rcases scanDfs_spec heap t b hfits with ⟨b₁, hsome, hext, -⟩ | ⟨hnone, -⟩
  · rw [hscan, Option.some.injEq, Prod.mk.injEq] at hsome
    rw [hsome.1]
    exact hext
  · exact absurd (hscan.symm.trans hnone) (Option.some_ne_none _)

/-- So does the loop over the entries of a directory; below, only the
offsets of the entries change. -/
theorem scanEntries_frame {dirents i : Nat}
    {es : List (Bytes × SourceTree)}
    (hdirents : dirents + 16 * (i + es.length) ≤ b.currentPos)
    (hfits : b.currentPos ≤ b.dataSize.1)
    (hscan : scanEntries dirents i (es.map (visit heap)) b = some b') :
    ∀ a, a < b.currentPos →
      (∀ k, k < es.length → a < dirents + 16 * (i + k) + 8
        ∨ dirents + 16 * (i + k) + 16 ≤ a) → b'.data a = b.data a := by
  rcases scanEntries_spec dirents es (fun e _ => scanDfs_spec heap e.2) i b
      hdirents hfits with ⟨b₁, hsome, -, -, hout, -⟩ | ⟨hnone, -⟩
  · rw [hscan, Option.some.injEq] at hsome
    rw [hsome]
    exact hout
  · exact absurd (hscan.symm.trans hnone) (Option.some_ne_none _)

/-- The visit stores the records of every node it writes. -/
def Keeps (heap : Nat → Mem) (t : SourceTree) : Prop :=
  ∀ (b b' : MetaFSBuilder) (n : Nat), b.currentPos ≤ b.dataSize.1 →
    scanDfs heap t b = some (b', n) →
    ∀ path p s, Placed b.currentPos t path p s → Records b'.data p s

/-- The bytes a node rests on are those of its own visit. -/
theorem records_within {off : Nat} {t s : SourceTree} {path : List Bytes}
    (hplaced : Placed off t path p s) :
    off ≤ p ∧ p + 72 ≤ off + t.extent
      ∧ direntsPos p s.attrs ≤ off + t.extent := by
  obtain ⟨hsup, hlo, hhi⟩ := hplaced.within
  have hnode : nodeSize = 72 := rfl
  have hsize : nodeSize + xattrsLen s.attrs ≤ s.extent := by
    cases s with
    | gone => cases hsup
    | node st xattrs target entries =>
        simp only [supported, isSupported, Bool.or_eq_true] at hsup
        show nodeSize + xattrsLen xattrs ≤ _
        rcases hsup with (h | h) | h
        · rw [extent_lnk h]
          omega
        · rw [extent_reg h]
        · have hdir := @extent_dir st xattrs target entries h 0
          rw [headEnd] at hdir
          omega
  rw [direntsPos]
  omega

/-- What a visit writes, the rest of the loop over the directory leaves
alone. -/
theorem scanEntries_records {dirents : Nat} (es : List (Bytes × SourceTree)) :
    (∀ e ∈ es, Keeps heap e.2) →
    ∀ (i : Nat) (b b' : MetaFSBuilder),
      dirents + 16 * (i + es.length) ≤ b.currentPos →
      b.currentPos ≤ b.dataSize.1 →
      scanEntries dirents i (es.map (visit heap)) b = some b' →
      ∀ (k : Nat) (e : Bytes × SourceTree) (path : List Bytes) (p : Nat)
        (s : SourceTree), es[k]? = some e →
        Placed (b.currentPos + extentSum (es.take k)) e.2 path p s →
        Records b'.data p s := by
  induction es with
  | nil =>
      intro _ i b b' _ _ _ k e path p s hk
      cases hk
  | cons e es ih =>
      intro hkeeps i b b' hdirents hfits hscan k x path p s hk hplaced
      have hlen : (e :: es).length = es.length + 1 := rfl
      rw [List.map_cons, scanEntries] at hscan
      split at hscan
      · cases hscan
      · next b₁ offset hvisit =>
        have hext := scanDfs_extends hfits hvisit
        have hpos := hext.pos
        have hroom := hext.fits
        by_cases hindex : i < 2 ^ 31
        · rw [show b₁.setDirentNodeOffset dirents i offset = some { b₁ with
              data := Entry.setDataOffset b₁.data dirents i offset } from
            if_pos hindex] at hscan
          simp only at hscan
          -- below where it starts, the rest only fills in offsets
          have hrest := scanEntries_frame (by simp only; omega)
            (by simp only; exact hroom) hscan
          cases k with
          | zero =>
              cases hk
              have hself := hkeeps e List.mem_cons_self b b₁ offset hfits
                hvisit path p s hplaced
              obtain ⟨hlo, hend, hattrs⟩ := records_within hplaced
              have hstart : b.currentPos + extentSum ((e :: es).take 0)
                  = b.currentPos := rfl
              rw [hstart] at hlo hend hattrs
              have hkept : ∀ a, b.currentPos ≤ a →
                  a < b.currentPos + e.2.extent → b₁.data a = b'.data a := by
                intro a halo hahi
                rw [hrest a (by simp only; omega) fun k hk => by omega]
                exact (Entry.setDataOffset_outside (by omega)).symm
              exact hself.congr (fun a _ _ => hkept a (by omega) (by omega))
                fun a _ _ => hkept a (by omega) (by omega)
          | succ k =>
              refine ih (fun e he => hkeeps e (List.mem_cons_of_mem _ he))
                (i + 1) _ b' (by simp only; omega) (by simp only; exact hroom)
                hscan k x path p s hk ?_
              have hsum : extentSum ((e :: es).take (k + 1))
                  = e.2.extent + extentSum (es.take k) := rfl
              rw [hsum, ← Nat.add_assoc, ← hpos] at hplaced
              exact hplaced
        · rw [show b₁.setDirentNodeOffset dirents i offset = none from
            if_neg hindex] at hscan
          cases hscan

/-- The scan stores the records of every node. -/
theorem scanDfs_records (heap : Nat → Mem) : ∀ t, Keeps heap t := by
  apply SourceTree.induct
  · intro b b' n _ _ path p s hplaced
    cases hplaced with
    | here _ _ supported => cases supported
  · intro st xattrs target entries ih b b' n hfits hscan path p s hplaced
    have hnode : nodeSize = 72 := rfl
    have hlenx := xattrsLen_readXattrs xattrs
    have hsup : isSupported st.mode.toNat = true := hplaced.root
    rw [scanDfs, if_neg (not_not.2 hsup)] at hscan
    simp only [isSupported, Bool.or_eq_true] at hsup
    rcases hsup with (hlnk | hreg) | hdir
    · -- a link
      rw [if_pos hlnk] at hscan
      have hstat := statAt_addLink hscan
      have hattrs := xattrsAt_addLink hscan
      have h0 : (0 : UInt8) ∉ linkName target := fun h => by
        have := List.mem_takeWhile_imp h
        simp at this
      rcases addLink_spec st (linkName target) (readXattrs xattrs) hfits h0
        with ⟨b₁, hsome, -⟩ | ⟨hnone, -⟩
      · rw [hscan, Option.some.injEq, Prod.mk.injEq] at hsome
        obtain ⟨-, rfl⟩ := hsome
        cases hplaced with
        | here _ _ _ => exact ⟨hstat, hattrs⟩
        | entry _ _ _ _ _ i e path _ _ isDir listed rest =>
            rw [(not_reg_dir_of_lnk hlnk).2] at isDir
            cases isDir
      · rw [hscan] at hnone
        cases hnone
    · -- a regular file
      rw [(not_lnk_of_reg hreg).1, if_neg (by simp), if_pos hreg] at hscan
      have hstat := statAt_addFile hscan
      have hattrs := xattrsAt_addFile hscan
      rcases addFile_spec st (readXattrs xattrs) hfits
        with ⟨b₁, hsome, -⟩ | ⟨hnone, -⟩
      · rw [hscan, Option.some.injEq, Prod.mk.injEq] at hsome
        obtain ⟨-, rfl⟩ := hsome
        cases hplaced with
        | here _ _ _ => exact ⟨hstat, hattrs⟩
        | entry _ _ _ _ _ i e path _ _ isDir listed rest =>
            rw [(not_lnk_of_reg hreg).2] at isDir
            cases isDir
      · rw [hscan] at hnone
        cases hnone
    · -- a directory: its own node, then those of its entries
      obtain ⟨hlnk, hreg⟩ := not_lnk_reg_of_dir hdir
      rw [hlnk, hreg, if_neg (by simp), if_neg (by simp), sorted_scanners]
        at hscan
      have hnames : ((sortedEntries entries).map (visit heap)).map Prod.fst
          = (sortedEntries entries).map Prod.fst := by
        rw [List.map_map]
        rfl
      simp only [hnames] at hscan
      rcases addDir_spec st ((sortedEntries entries).map Prod.fst)
        (readXattrs xattrs) hfits with ⟨b₁, hadd, hext, -⟩ | ⟨hnone, -⟩
      · have hstat := statAt_addDir hadd
        have hattrs := xattrsAt_addDir hadd
        have hpos := hext.pos
        have hlen := namesLen_eq ((sortedEntries entries).map Prod.fst)
        rw [List.length_map] at hlen
        have hdirents : direntsPos b.currentPos (readXattrs xattrs)
            = b.currentPos + nodeSize + xattrsLen xattrs := by
          rw [direntsPos, hlenx]
        have hhead : headEnd b.currentPos xattrs (sortedEntries entries)
            = b₁.currentPos := by
          rw [hpos, hlenx, headEnd]
          omega
        rw [hadd] at hscan
        simp only at hscan
        rw [hdirents] at hscan
        split at hscan
        · cases hscan
        · next b₂ hloop =>
          cases hscan
          cases hplaced with
          | here _ _ _ =>
              have hframe := scanEntries_frame (by omega) hext.fits hloop
              refine Records.congr (m := b₁.data)
                (s := .node st xattrs target entries) ⟨hstat, hattrs⟩
                (fun a hlo hhi => ?_) fun a hlo hhi => ?_
              · exact (hframe a (by omega) fun k hk => by omega).symm
              · have hhi' : a < b.currentPos + nodeSize + xattrsLen xattrs :=
                  hhi
                exact (hframe a (by omega) fun k hk => by omega).symm
          | entry _ _ _ _ _ i e path _ _ _ listed rest =>
              have hkeeps : ∀ e ∈ sortedEntries entries,
                  Keeps heap e.2 := by
                intro e he
                obtain ⟨x, hx, -, hxe⟩ := mem_sortedEntries.1 he
                rw [← hxe]
                exact ih x hx
              refine scanEntries_records (sortedEntries entries) hkeeps 0 b₁
                _ (by omega) hext.fits hloop i e path p s listed ?_
              rw [childPos, hhead] at rest
              exact rest
      · rw [hnone] at hscan
        cases hscan

-- ======================================================= the build

section Build

variable {σ : Type} {ops : ChunkOps σ} {openAt : Bytes → SourceFile}
  {fuel : Nat} {root : Bytes} {t : SourceTree} {chunks : ChunkBuilder σ}
  {r : Built σ}

/-- A build that returns has the image of its scan, but for the slack. -/
theorem slackOnly_of_build (hsup : t.supported = true) (hstays : Stays t)
    (hbuild : build ops openAt fuel heap root t chunks = some r) :
    ∃ b, scanDfs heap t (start heap) = some (b, usizeSize)
      ∧ SlackOnly t (measured b).data r.data
      ∧ r.size = usizeSize + t.extent := by
  unfold build at hbuild
  split at hbuild
  · cases hbuild
  · next b off hscan =>
    obtain ⟨hpos, -, hat⟩ := scanned hscan
    have hoff : off = usizeSize := by
      rcases scanDfs_spec heap t (start heap)
          (show usizeSize ≤ chunkSizeBytes by decide)
        with ⟨b₁, hsome, -⟩ | ⟨hnone, -⟩
      · rw [hscan, hsup, if_pos rfl, Option.some.injEq, Prod.mk.injEq]
          at hsome
        exact hsome.2
      · exact absurd (hscan.symm.trans hnone) (Option.some_ne_none _)
    have hintact : Intact t (measured b) := intact_of_stays hat hsup hstays
    simp only at hbuild
    split at hbuild
    · cases hbuild
    · next err m chunks' hcreate =>
      obtain ⟨hslack, -⟩ := hintact.after ops openAt fuel root chunks chunks'
        err m hcreate
      refine ⟨b, hoff ▸ hscan, ?_⟩
      split at hbuild
      · cases hbuild
        exact ⟨hslack, hpos⟩
      · split at hbuild
        · cases hbuild
        · cases hbuild
          exact ⟨hslack, hpos⟩

/-- The records of a node are no slack. -/
theorem SlackOnly.records {m m' : Mem} {path : List Bytes} {p : Nat}
    {s : SourceTree} (h : SlackOnly t m m')
    (hplaced : Placed usizeSize t path p s) (hrec : Records m p s) :
    Records m' p s := by
  have hnode : nodeSize = 72 := rfl
  obtain ⟨-, hend, hattrs⟩ := records_within hplaced
  have hsup := hplaced.within.1
  have hown : p + nodeSize ≤ direntsPos p s.attrs := Nat.le_add_right _ _
  -- a byte of slack is one of a regular file, and not of its attributes
  have hno : ∀ a, p ≤ a → a < p + 56 ∨ p + nodeSize ≤ a →
      a < direntsPos p s.attrs → ¬ Slack usizeSize t a := by
    intro a hlo hfield hhi ⟨path', p', s', hplaced', hreg, hlo', hhi'⟩
    have hin' := hplaced'.within
    have hin := hplaced.within
    have hsize := nodeSize_le_extent hin'.1
    obtain ⟨-, -, hown'⟩ := records_within
      (Placed.here p s hsup)
    rcases Nat.lt_or_ge p p' with hbefore | hbehind
    · -- a file below the node, so behind what the node itself takes
      obtain ⟨rest, -, hrest⟩ := hplaced'.nested hplaced (by omega)
        (by omega)
      cases rest with
      | nil =>
          obtain ⟨-, hp, -⟩ := placed_nil_iff.1 hrest
          omega
      | cons c rest =>
          obtain ⟨i, e, hi, -, hchild⟩ := placed_cons_iff.1 hrest
          obtain ⟨hstart, -⟩ := @childPos_within p i _ e hi
          have hhead : headEnd p s.attrs s.kept
              = direntsPos p s.attrs + namesLen (s.kept.map Prod.fst) := rfl
          have hchild' := hchild.within
          omega
    · obtain ⟨rest, -, hrest⟩ := hplaced.nested hplaced' hbehind
        (by omega)
      obtain ⟨-, hp, -⟩ := hrest.of_isReg hreg
      omega
  refine hrec.congr (fun a hlo hhi => ?_) fun a hlo hhi => ?_
  · exact (h a (hno a hlo (.inl hhi) (by omega))).symm
  · exact (h a (hno a (by omega) (.inr hlo) hhi)).symm

/-- Every image with the bytes of a build has the records of every
node. -/
theorem records_of_build (hsup : t.supported = true) (hstays : Stays t)
    (hbuild : build ops openAt fuel heap root t chunks = some r)
    {image : Mem} (himage : image.read 0 r.size = r.data.read 0 r.size)
    {path : List Bytes} {p : Nat} {s : SourceTree}
    (hplaced : Placed usizeSize t path p s) : Records image p s := by
  obtain ⟨b, hscan, hslack, hsize⟩ := slackOnly_of_build hsup hstays hbuild
  obtain ⟨hlo, hend, hattrs⟩ := records_within hplaced
  have hstart : (start heap).currentPos = usizeSize := rfl
  have hword : usizeSize = 8 := rfl
  have hrec := scanDfs_records heap t (start heap) b usizeSize
    (show usizeSize ≤ chunkSizeBytes by decide) hscan path p s hplaced
  have hmeasured : Records (measured b).data p s :=
    hrec.congr (fun a _ _ => (Mem.writeLe_outside _ (.inr (by omega))).symm)
      fun a _ _ => (Mem.writeLe_outside _ (.inr (by omega))).symm
  have hsame : ∀ a, a < r.size → r.data a = image a := fun a ha =>
    (Mem.eq_of_read_eq himage (Nat.zero_le a) (by omega)).symm
  exact (hslack.records hplaced hmeasured).congr
    (fun a _ _ => hsame a (by omega)) fun a _ _ => hsame a (by omega)

end Build

/-- Whatever a store does and whichever files can be read: a build that
comes back, of a tree whose entries stay, has recorded every node. Its
extended attributes stand there as `read_xattrs` got them, and `get_stat`
tells its `struct stat` if and only if neither time is before 1970. -/
theorem nodes_recorded {σ : Type} (ops : ChunkOps σ)
    (openAt : Bytes → SourceFile) (heap : Nat → Mem) (fuel : Nat)
    (root : Bytes) (t : SourceTree) (hsup : t.supported = true)
    (hstays : Stays t) (chunks : ChunkBuilder σ) (r : Built σ)
    (hbuild : build ops openAt fuel heap root t chunks = some r)
    (image : Mem) (himage : image.read 0 r.size = r.data.read 0 r.size)
    (path : List Bytes) (st : Stat) (xattrs : Xattrs) (target : Bytes)
    (entries : List Listed)
    (hnamed : Named t path (.node st xattrs target entries)) :
    ∃ p, Placed usizeSize t path p (.node st xattrs target entries)
      ∧ StatAt image p st ∧ XattrsAt image p (readXattrs xattrs)
      ∧ (st.Valid → (st.Told (MetaFileSystem.getStat image p)
        ↔ 0 ≤ st.mtimeSec ∧ 0 ≤ st.ctimeSec)) := by
  obtain ⟨p, hplaced⟩ := hnamed.placed usizeSize
  obtain ⟨hstat, hxattrs⟩ :=
    records_of_build hsup hstays hbuild himage hplaced
  exact ⟨p, hplaced, hstat, hxattrs, hstat.told_iff⟩

/-- The directory has the attribute `a`, and was changed in 1970. -/
theorem nodes_recorded_attribute :
    ∃ r p, build MemoryStore.ops
          (fun _ => .opened { rest := [104, 105], script := [] }) 200
          (fun _ _ => 0) [115] (MetaFileSystem.oneFile [([97], [49])])
          (ChunkBuilder.new .empty fun _ => 0) = some r
        ∧ XattrsAt r.data p (readXattrs [([97], [49])])
        ∧ (MetaFileSystem.statOf 0x41ED).Told
          (MetaFileSystem.getStat r.data p) := by
  have hsup : (MetaFileSystem.oneFile [([97], [49])]).supported = true := rfl
  have hstatic := MetaFileSystem.oneFile_static [([97], [49])]
  obtain ⟨b, hscan⟩ := @scanDfs_small (fun _ _ => 0)
    (MetaFileSystem.oneFile [([97], [49])]) hsup (by decide)
  have htotal : totalLen (MetaFileSystem.oneFile [([97], [49])])
      (sourceAt (fun _ => .opened { rest := [104, 105], script := [] }) [115])
        ≤ 2 ^ 32 * chunkSizeBytes := by decide
  rcases build_spec (MemoryStore.faithful _) htotal hstatic.found hsup
      (Nat.le_refl _) MemoryStore.ready_empty (fun _ => rfl) (fun _ => 0)
      hscan (show (MetaFileSystem.oneFile [([97], [49])]).extent ≤ 200
        by decide)
    with ⟨-, path, st, hnamed, hst, hunsound⟩ | ⟨r, hbuild, -, -⟩
  · exact absurd (fun c hc => absurd hc List.not_mem_nil) hunsound
  · obtain ⟨p, -, -, hxattrs, htold⟩ := nodes_recorded MemoryStore.ops
      (fun _ => .opened { rest := [104, 105], script := [] }) (fun _ _ => 0)
      200 [115] (MetaFileSystem.oneFile [([97], [49])]) hsup
      (fun path s hnamed e he => (hstatic.found path s hnamed e he).2)
      (ChunkBuilder.new .empty fun _ => 0) r hbuild r.data rfl [] _ _ _ _
      (.here _ hsup)
    have hzero : FitsInt64 0 := by decide
    have hnsec : (0 : Int) ≤ 0 ∧ (0 : Int) < 1000000000 := by decide
    exact ⟨r, p, hbuild, hxattrs, (htold
      ⟨hzero, hzero, hnsec, hnsec, hzero, hzero⟩).2
        ⟨Int.le_refl 0, Int.le_refl 0⟩⟩

end MetaFSBuilder

end Distfs

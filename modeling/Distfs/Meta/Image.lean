/-
What a metadata image holds of a source tree.

# The records

`DirAt` says what `add_dir` and the loop behind it leave of one
directory: node, attributes, entries and names, in this order, from the
offset of the node up to `headEnd`. `At` adds the other kinds and
descends: the visit of entry `i` left its records at `childPos`.

# What they rest on

Only on the bytes the visit wrote, and not on all of these: the fields
`length` and `data_offset` of a regular file are filled in later.
`Slack` names them, and `At.congr` carries the records over to every
memory that agrees everywhere else.
-/
import Distfs.Meta.SourceTree

namespace Distfs

namespace SourceTree

/-- Where the entries of a directory at `off` are. -/
def direntsPos (off : Nat) (xattrs : Xattrs) : Nat :=
  off + nodeSize + xattrsLen xattrs

/-- What `add_dir` leaves of a directory with these names at `off`. -/
structure DirNode (m : Mem) (off mode : Nat) (xattrs : Xattrs)
    (names : List Bytes) : Prop where
  mode : Node.mode m off = mode
  length : Node.length m off = names.length
  dataOffset : Node.dataOffset m off = direntsPos off xattrs
  name : ∀ i s, names[i]? = some s →
    direntsPos off xattrs + entrySize * names.length
        ≤ Entry.nameOffset m (direntsPos off xattrs) i
      ∧ Entry.nameOffset m (direntsPos off xattrs) i + (s.length + 1)
        ≤ direntsPos off xattrs + namesLen names
      ∧ (0 ∉ s → m.CStr (Entry.nameOffset m (direntsPos off xattrs) i) s)
  value : ∀ i, i < xattrs.length →
    Entry.dataOffset m (off + nodeSize) i < direntsPos off xattrs

/-- The records of a directory at `off`, the offsets of its entries
included. -/
structure DirAt (m : Mem) (off mode : Nat) (xattrs : Xattrs)
    (es : List (Bytes × SourceTree)) : Prop where
  node : DirNode m off mode xattrs (es.map Prod.fst)
  child : ∀ i e, es[i]? = some e →
    Entry.dataOffset m (direntsPos off xattrs) i
      = if e.2.supported then childPos off xattrs es i else 0

/-- The records of the tree at `off`. -/
inductive At (m : Mem) : Nat → SourceTree → Prop where
  | skip (off : Nat) (t : SourceTree) (unsupported : t.supported = false) :
      At m off t
  | file (off : Nat) (st : Stat) (xattrs : Xattrs) (target : Bytes)
      (entries : List Listed) (isReg : sIsReg st.mode.toNat = true)
      (mode : Node.mode m off = st.mode.toNat) :
      At m off (.node st xattrs target entries)
  | link (off : Nat) (st : Stat) (xattrs : Xattrs) (target : Bytes)
      (entries : List Listed) (isLnk : sIsLnk st.mode.toNat = true)
      (mode : Node.mode m off = st.mode.toNat)
      (dataOffset : Node.dataOffset m off = direntsPos off xattrs)
      (content : m.CStr (direntsPos off xattrs) (linkName target)) :
      At m off (.node st xattrs target entries)
  | dir (off : Nat) (st : Stat) (xattrs : Xattrs) (target : Bytes)
      (entries : List Listed) (isDir : sIsDir st.mode.toNat = true)
      (records : DirAt m off st.mode.toNat xattrs (sortedEntries entries))
      (below : ∀ i e, (sortedEntries entries)[i]? = some e →
        At m (childPos off xattrs (sortedEntries entries) i) e.2) :
      At m off (.node st xattrs target entries)

-- ======================================= carrying records over

theorem length_le_namesLen (names : List Bytes) :
    entrySize * names.length ≤ namesLen names := by
  induction names with
  | nil => exact Nat.le_refl 0
  | cons s names ih =>
      rw [namesLen] at ih ⊢
      simp only [List.map_cons, List.sum_cons, List.length_cons]
      rw [Nat.mul_succ]
      omega

theorem length_le_xattrsLen (xattrs : Xattrs) :
    entrySize * xattrs.length ≤ xattrsLen xattrs := by
  induction xattrs with
  | nil => exact Nat.le_refl 0
  | cons x xattrs ih =>
      rw [xattrsLen] at ih ⊢
      simp only [List.map_cons, List.sum_cons, List.length_cons]
      rw [Nat.mul_succ]
      omega

/-- Entry `i` lies within `n` entries. -/
theorem entry_le {p i n : Nat} (h : i < n) :
    p + entrySize * i + entrySize ≤ p + entrySize * n := by
  have := Nat.mul_le_mul_left entrySize (Nat.succ_le_of_lt h)
  rw [Nat.mul_succ] at this
  omega

/-- The offsets of the entries are not among the records. -/
theorem DirNode.congr {m m' : Mem} {off mode : Nat} {xattrs : Xattrs}
    {names : List Bytes} (h : DirNode m off mode xattrs names)
    (heq : ∀ a, off ≤ a → a < direntsPos off xattrs + namesLen names →
      (∀ i, i < names.length →
        a < direntsPos off xattrs + entrySize * i + 8
          ∨ direntsPos off xattrs + entrySize * i + entrySize ≤ a) →
      m a = m' a) :
    DirNode m' off mode xattrs names := by
  have hnode : nodeSize = 72 := rfl
  have hentry : entrySize = 16 := rfl
  have hnames := length_le_namesLen names
  have hvalues := length_le_xattrsLen xattrs
  have hdirents : direntsPos off xattrs
      = off + nodeSize + xattrsLen xattrs := rfl
  have hbefore : ∀ a k, off ≤ a → a + k ≤ direntsPos off xattrs →
      m'.readLe a k = m.readLe a k := fun a k hlo hhi =>
    (Mem.readLe_congr fun i hilo hihi =>
      heq i (by omega) (by omega) fun j _ => by omega).symm
  have hnameOffset : ∀ i s, names[i]? = some s →
      Entry.nameOffset m' (direntsPos off xattrs) i
        = Entry.nameOffset m (direntsPos off xattrs) i := by
    intro i s hs
    obtain ⟨hlt, -⟩ := List.getElem?_eq_some_iff.1 hs
    have hle := @entry_le (direntsPos off xattrs) i names.length hlt
    refine (Mem.readLe_congr fun a hlo hhi =>
      heq a (by omega) (by omega) fun j hj => ?_).symm
    rcases Nat.lt_or_ge j i with hji | hij
    · have := @entry_le (direntsPos off xattrs) j i hji
      omega
    · have := Nat.mul_le_mul_left entrySize hij
      omega
  refine ⟨?_, ?_, ?_, ?_, ?_⟩
  · rw [← h.mode]
    exact hbefore _ 4 (by omega) (by omega)
  · rw [← h.length]
    exact hbefore _ 8 (by omega) (by omega)
  · rw [← h.dataOffset]
    exact hbefore _ 8 (by omega) (by omega)
  · intro i s hs
    rw [hnameOffset i s hs]
    obtain ⟨hlo, hhi, hstr⟩ := h.name i s hs
    refine ⟨hlo, hhi, fun h0 => (hstr h0).congr fun a halo hahi =>
      heq a (by omega) (by omega) fun j hj => ?_⟩
    have := @entry_le (direntsPos off xattrs) j names.length hj
    omega
  · intro i hi
    have hval := h.value i hi
    have := @entry_le (off + nodeSize) i xattrs.length hi
    have heq' : Entry.dataOffset m' (off + nodeSize) i
        = Entry.dataOffset m (off + nodeSize) i :=
      hbefore _ 8 (by omega) (by omega)
    rw [heq']
    exact hval

theorem DirAt.congr {m m' : Mem} {off mode : Nat} {xattrs : Xattrs}
    {es : List (Bytes × SourceTree)} (h : DirAt m off mode xattrs es)
    (heq : ∀ a, off ≤ a → a < headEnd off xattrs es → m a = m' a) :
    DirAt m' off mode xattrs es := by
  refine ⟨h.node.congr fun a hlo hhi _ => heq a hlo hhi, fun i e he => ?_⟩
  have hentry : entrySize = 16 := rfl
  have hnames := length_le_namesLen (es.map Prod.fst)
  have hend : headEnd off xattrs es
      = direntsPos off xattrs + namesLen (es.map Prod.fst) := rfl
  have hdirents : direntsPos off xattrs
      = off + nodeSize + xattrsLen xattrs := rfl
  obtain ⟨hlt, -⟩ := List.getElem?_eq_some_iff.1 he
  have hle := @entry_le (direntsPos off xattrs) i es.length hlt
  rw [List.length_map] at hnames
  rw [← h.child i e he]
  exact (Mem.readLe_congr fun a halo hahi =>
    heq a (by omega) (by omega)).symm

/-- The byte is one of `length` or `data_offset` of a regular file. -/
def Slack (off : Nat) (t : SourceTree) (a : Nat) : Prop :=
  ∃ path p s, Placed off t path p s ∧ s.isReg = true
    ∧ p + 56 ≤ a ∧ a < p + nodeSize

/-- The records of a directory have no slack. -/
theorem Slack.headEnd_le {off a : Nat} {st : Stat} {xattrs : Xattrs}
    {target : Bytes} {entries : List Listed}
    (h : Slack off (.node st xattrs target entries) a)
    (hdir : sIsDir st.mode.toNat = true) :
    headEnd off xattrs (sortedEntries entries) ≤ a := by
  obtain ⟨path, p, s, hplaced, hreg, hlo, -⟩ := h
  cases hplaced with
  | here _ _ supported =>
      rw [isReg, (not_lnk_reg_of_dir hdir).2] at hreg
      cases hreg
  | entry _ _ _ _ _ i e path _ _ isDir listed rest =>
      have hwithin := rest.within
      have hstart := @headEnd_le_childPos off xattrs (sortedEntries entries) i
      omega

/-- The records stand in every memory that agrees on what the visit
wrote, except for the slack. -/
theorem At.congr {m m' : Mem} {off : Nat} {t : SourceTree} (h : At m off t)
    (heq : ∀ a, off ≤ a → a < off + t.extent → ¬ Slack off t a →
      m a = m' a) : At m' off t := by
  have hnode : nodeSize = 72 := rfl
  induction h with
  | skip off t unsupported => exact .skip off t unsupported
  | file off st xattrs target entries isReg mode =>
      refine .file off st xattrs target entries isReg ?_
      rw [extent_reg isReg] at heq
      rw [← mode]
      refine (Mem.readLe_congr fun a hlo hhi => ?_).symm
      refine heq a hlo (by omega) ?_
      -- the mode is not among the slack of the file itself
      intro hslack
      obtain ⟨path, p, s, hplaced, -, hp, -⟩ := hslack
      have := hplaced.within
      omega
  | link off st xattrs target entries isLnk mode dataOffset content =>
      have hnone : ∀ a, ¬ Slack off (.node st xattrs target entries) a := by
        intro a hslack
        obtain ⟨hreg, hdir⟩ := not_reg_dir_of_lnk isLnk
        obtain ⟨path, p, s, hplaced, hs, -⟩ := hslack
        cases hplaced with
        | here _ _ supported =>
            rw [SourceTree.isReg, hreg] at hs
            cases hs
        | entry _ _ _ _ _ i e path _ _ isDir listed rest =>
            rw [isDir] at hdir
            cases hdir
      rw [extent_lnk isLnk] at heq
      have hpos : direntsPos off xattrs
        = off + nodeSize + xattrsLen xattrs := rfl
      refine .link off st xattrs target entries isLnk ?_ ?_ ?_
      · rw [← mode]
        exact (Mem.readLe_congr fun a hlo hhi =>
          heq a hlo (by omega) (hnone a)).symm
      · rw [← dataOffset]
        exact (Mem.readLe_congr fun a hlo hhi =>
          heq a (by omega) (by omega) (hnone a)).symm
      · exact content.congr fun a hlo hhi =>
          heq a (by omega) (by omega) (hnone a)
  | dir off st xattrs target entries isDir records below ih =>
      have hextent := @extent_dir st xattrs target entries isDir off
      refine .dir off st xattrs target entries isDir ?_ ?_
      · refine records.congr fun a hlo hhi => heq a hlo (by omega) ?_
        intro hslack
        have := hslack.headEnd_le isDir
        omega
      · intro i e he
        refine ih i e he fun a hlo hhi hslack => ?_
        have hstart :=
          @headEnd_le_childPos off xattrs (sortedEntries entries) i
        have hend := @childPos_end off xattrs _ _ _ he
        have hhead : off ≤ headEnd off xattrs (sortedEntries entries) := by
          rw [headEnd]
          omega
        refine heq a (by omega) (by omega) ?_
        intro hout
        apply hslack
        obtain ⟨path, p, s, hplaced, hs, hlo', hhi'⟩ := hout
        cases hplaced with
        | here _ _ supported =>
            rw [SourceTree.isReg, (not_lnk_reg_of_dir isDir).2] at hs
            cases hs
        | entry _ _ _ _ _ j e' path _ _ _ listed rest =>
            have hwithin := rest.within
            have hsize := nodeSize_le_extent hwithin.1
            have hij := childPos_unique he listed hlo hhi (by omega) (by omega)
            subst hij
            rw [he, Option.some.injEq] at listed
            subst listed
            exact ⟨path, p, s, rest, hs, hlo', hhi'⟩

-- =================================================== reading records

/-- The kind of a node is that of the tree. -/
theorem At.kind {m : Mem} {off : Nat} {t : SourceTree} (h : At m off t)
    (hsup : t.supported = true) :
    sIsDir (Node.mode m off) = t.isDir
      ∧ sIsReg (Node.mode m off) = t.isReg := by
  cases h with
  | skip _ _ unsupported =>
      rw [unsupported] at hsup
      cases hsup
  | file _ _ _ _ _ _ mode => rw [mode]; exact ⟨rfl, rfl⟩
  | link _ _ _ _ _ _ mode => rw [mode]; exact ⟨rfl, rfl⟩
  | dir _ _ _ _ _ _ records => rw [records.node.mode]; exact ⟨rfl, rfl⟩

/-- The records of a directory, and those of its entries. -/
theorem At.records {m : Mem} {off : Nat} {t : SourceTree} (h : At m off t)
    (hdir : t.isDir = true) :
    (∃ mode, DirAt m off mode t.attrs t.kept)
      ∧ ∀ i e, t.kept[i]? = some e →
        At m (childPos off t.attrs t.kept i) e.2 := by
  cases h with
  | skip _ _ unsupported =>
      cases t with
      | gone => cases hdir
      | node st xattrs target entries =>
          rw [supported_of_isDir hdir] at unsupported
          cases unsupported
  | file _ st xattrs target entries isReg mode =>
      rw [isDir, (not_lnk_of_reg isReg).2] at hdir
      cases hdir
  | link _ st xattrs target entries isLnk mode =>
      rw [isDir, (not_reg_dir_of_lnk isLnk).2] at hdir
      cases hdir
  | dir _ st xattrs target entries isDir records below =>
      have hkept : (SourceTree.node st xattrs target entries).kept
          = sortedEntries entries := if_pos isDir
      rw [hkept]
      exact ⟨⟨_, records⟩, below⟩

/-- Where the records of an entry are. -/
theorem childPos_within {off i : Nat} {t : SourceTree}
    {e : Bytes × SourceTree} (h : t.kept[i]? = some e) :
    headEnd off t.attrs t.kept ≤ childPos off t.attrs t.kept i
      ∧ childPos off t.attrs t.kept i + e.2.extent ≤ off + t.extent := by
  have hdir := isDir_of_kept (List.mem_of_getElem? h)
  refine ⟨headEnd_le_childPos i, ?_⟩
  cases t with
  | gone => cases hdir
  | node st xattrs target entries =>
      have hkept : (SourceTree.node st xattrs target entries).kept
          = sortedEntries entries := if_pos hdir
      rw [hkept] at h ⊢
      rw [extent_dir hdir]
      exact childPos_end h

/-- What is placed in a tree with records has its records. -/
theorem At.placed {m : Mem} {off p : Nat} {t s : SourceTree}
    {path : List Bytes} (h : At m off t) (hplaced : Placed off t path p s) :
    At m p s := by
  induction path generalizing off t with
  | nil =>
      obtain ⟨-, rfl, rfl⟩ := placed_nil_iff.1 hplaced
      exact h
  | cons c path ih =>
      obtain ⟨i, e, hi, -, rest⟩ := placed_cons_iff.1 hplaced
      have hdir := isDir_of_kept (List.mem_of_getElem? hi)
      exact ih ((h.records hdir).2 i e hi) rest

end SourceTree

end Distfs

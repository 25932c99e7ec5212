/-
The source directory as the builder sees it, and where its records go in
the image.

# The source

A `SourceTree` is what the system calls of `scan_dfs` answer below a
path: `lstat`, the extended attributes, `readlink`, and for a directory
the names `readdir` lists, each with the mode `lstat` answers in the
listing loop and with what the visit finds later. In a `Static` tree the
two agree, and names are what a file system allows.

# The layout

`scan_dfs` writes depth first and never moves anything, so where a
record goes is decided by the sizes of what is written before it:
`extent` is what a visit writes in all, `childPos` where the visit of an
entry starts. `Placed` names the nodes: the node of a path, its offset,
and what lies below it.
-/
import Distfs.Meta.Types
import Mathlib.Data.List.Sort

namespace Distfs

/-- What a file system allows as a name: it is not empty and has neither
NUL nor `/`. -/
def Component (name : Bytes) : Prop := name ≠ [] ∧ 0 ∉ name ∧ 47 ∉ name

instance (name : Bytes) : Decidable (Component name) :=
  inferInstanceAs (Decidable (_ ∧ _ ∧ _))

/-- The components, each behind a slash. -/
def slashed (cs : List Bytes) : Bytes := cs.flatMap fun c => 47 :: c

/-- One component more at the end. -/
theorem slashed_concat (cs : List Bytes) (c : Bytes) :
    slashed (cs ++ [c]) = slashed cs ++ 47 :: c := by
  simp [slashed]

/-- Name and value of each extended attribute. -/
abbrev Xattrs := List (Bytes × Bytes)

/-- What the builder finds under a path. -/
inductive SourceTree where
  | gone
  | node (st : Stat) (xattrs : Xattrs) (target : Bytes)
      (entries : List (Bytes × Option UInt32 × SourceTree))

/-- An entry of a directory listing: its name, the mode found while
listing, and what the visit finds. -/
abbrev Listed := Bytes × Option UInt32 × SourceTree

/-- The listing loop keeps the entry: it is neither `.` nor `..`, and of
a supported kind. -/
def keeps (e : Listed) : Bool :=
  e.1 ≠ [46] && e.1 ≠ [46, 46]
    && (match e.2.1 with
      | none => false
      | some mode => isSupported mode.toNat)

/-- The kept entries in the order of `std::sort`. -/
def sortedEntries (entries : List Listed) : List (Bytes × SourceTree) :=
  ((entries.filter keeps).map fun e => (e.1, e.2.2)).insertionSort
    fun a b => a.1 ≤ b.1

namespace SourceTree

/-- The mode `lstat` answers. -/
def mode? : SourceTree → Option UInt32
  | .gone => none
  | .node st _ _ _ => some st.mode

/-- It is a regular file. -/
def isReg : SourceTree → Bool
  | .gone => false
  | .node st _ _ _ => sIsReg st.mode.toNat

/-- It is a directory. -/
def isDir : SourceTree → Bool
  | .gone => false
  | .node st _ _ _ => sIsDir st.mode.toNat

/-- The extended attributes. -/
def attrs : SourceTree → Xattrs
  | .gone => []
  | .node _ xattrs _ _ => xattrs

/-- There is something of a supported kind. -/
def supported : SourceTree → Bool
  | .gone => false
  | .node st _ _ _ => isSupported st.mode.toNat

/-- Induction over a tree: what holds of the entries holds of the
directory. -/
theorem induct {P : SourceTree → Prop} (gone : P .gone)
    (node : ∀ st xattrs target entries, (∀ e ∈ entries, P e.2.2) →
      P (.node st xattrs target entries)) : ∀ t, P t
  | .gone => gone
  | .node st xattrs target entries =>
      node st xattrs target entries fun e he =>
        have : sizeOf e.2.2 < 1 + sizeOf entries := by
          have hmem := List.sizeOf_lt_of_mem he
          obtain ⟨name, mode, t⟩ := e
          simp only [Prod.mk.sizeOf_spec] at hmem
          simp only
          omega
        induct gone node e.2.2
termination_by t => sizeOf t
decreasing_by
  simp only [SourceTree.node.sizeOf_spec]
  omega

/-- The tree does not change while it is read, and its names are what a
file system allows, different ones in each directory. -/
inductive Static : SourceTree → Prop where
  | gone : Static .gone
  | node (st : Stat) (xattrs : Xattrs) (target : Bytes)
      (entries : List Listed)
      (names : ∀ e ∈ entries, Component e.1)
      (distinct : (entries.map Prod.fst).Nodup)
      (agree : ∀ e ∈ entries, e.2.1 = e.2.2.mode?)
      (below : ∀ e ∈ entries, Static e.2.2) :
      Static (.node st xattrs target entries)

/-- The entries of a directory that the builder keeps, in its order. -/
def kept : SourceTree → List (Bytes × SourceTree)
  | .gone => []
  | .node st _ _ entries =>
      if sIsDir st.mode.toNat then sortedEntries entries else []

/-- The path names something of a supported kind in the tree. -/
inductive Named : SourceTree → List Bytes → SourceTree → Prop where
  | here (t : SourceTree) (supported : t.supported = true) : Named t [] t
  | entry (t : SourceTree) (e : Bytes × SourceTree) (path : List Bytes)
      (s : SourceTree) (listed : e ∈ t.kept) (rest : Named e.2 path s) :
      Named t (e.1 :: path) s

end SourceTree

-- ======================================================= the layout

/-- `xattrs_len`. -/
def xattrsLen (xattrs : Xattrs) : Nat :=
  (xattrs.map fun x =>
    x.1.length + 1 + x.2.length + 1 + entrySize + usizeSize).sum

/-- What a directory of these names takes behind its attributes. -/
def namesLen (names : List Bytes) : Nat :=
  (names.map fun e => e.length + 1 + entrySize).sum

/-- `PATH_MAX`. -/
def pathMax : Nat := 4096

/-- A link target as `readlink` and `strlen` cut it. -/
def linkName (target : Bytes) : Bytes :=
  (target.take pathMax).takeWhile (· ≠ 0)

namespace SourceTree

mutual

/-- The bytes a visit of the tree writes. -/
def extent : SourceTree → Nat
  | .gone => 0
  | .node st xattrs target entries =>
      if sIsLnk st.mode.toNat then
        nodeSize + xattrsLen xattrs + ((linkName target).length + 1)
      else if sIsReg st.mode.toNat then nodeSize + xattrsLen xattrs
      else if sIsDir st.mode.toNat then
        nodeSize + xattrsLen xattrs + extents entries
      else 0

/-- The bytes the entries of a directory take, records and visits. -/
def extents : List (Bytes × Option UInt32 × SourceTree) → Nat
  | [] => 0
  | e :: es =>
      (if keeps e then e.1.length + 1 + entrySize + extent e.2.2 else 0)
        + extents es

end

/-- Where the records of a directory at `off` end and the visit of its
first entry starts. -/
def headEnd (off : Nat) (xattrs : Xattrs) (es : List (Bytes × SourceTree)) :
    Nat :=
  off + nodeSize + xattrsLen xattrs + namesLen (es.map Prod.fst)

/-- Where the visit of entry `i` starts. -/
def childPos (off : Nat) (xattrs : Xattrs) (es : List (Bytes × SourceTree))
    (i : Nat) : Nat :=
  headEnd off xattrs es + ((es.take i).map fun e => e.2.extent).sum

/-- The node that the visit of `t` starting at `off` writes for `path`:
its offset, and the tree it was written for. -/
inductive Placed : Nat → SourceTree → List Bytes → Nat → SourceTree → Prop
  where
  | here (off : Nat) (t : SourceTree) (supported : t.supported = true) :
      Placed off t [] off t
  | entry (off : Nat) (st : Stat) (xattrs : Xattrs) (target : Bytes)
      (entries : List Listed) (i : Nat) (e : Bytes × SourceTree)
      (path : List Bytes) (p : Nat) (s : SourceTree)
      (isDir : sIsDir st.mode.toNat = true)
      (listed : (sortedEntries entries)[i]? = some e)
      (rest : Placed (childPos off xattrs (sortedEntries entries) i) e.2
        path p s) :
      Placed off (.node st xattrs target entries) (e.1 :: path) p s

-- ==================================================== kept entries

/-- The kept entries, sorted. -/
theorem sortedEntries_perm (entries : List Listed) :
    (sortedEntries entries).Perm
      ((entries.filter keeps).map fun e => (e.1, e.2.2)) :=
  List.perm_insertionSort _ _

/-- Sorting loses none of them. -/
theorem mem_sortedEntries {entries : List Listed} {e : Bytes × SourceTree} :
    e ∈ sortedEntries entries
      ↔ ∃ x ∈ entries, keeps x = true ∧ (x.1, x.2.2) = e := by
  rw [(sortedEntries_perm entries).mem_iff, List.mem_map]
  simp only [List.mem_filter, and_assoc]

/-- Only directories keep entries. -/
theorem isDir_of_kept {t : SourceTree} {e : Bytes × SourceTree}
    (h : e ∈ t.kept) : t.isDir = true := by
  cases t with
  | gone => cases h
  | node st xattrs target entries =>
      rw [kept] at h
      split at h
      · assumption
      · cases h

/-- The kept entries of a static tree are what their names promise. -/
theorem Static.kept {t : SourceTree} (h : Static t) {e : Bytes × SourceTree}
    (he : e ∈ t.kept) :
    Component e.1 ∧ e.2.supported = true ∧ Static e.2 := by
  cases h with
  | gone => cases he
  | node st xattrs target entries names distinct agree below =>
      rw [SourceTree.kept] at he
      split at he
      · obtain ⟨x, hx, hkeeps, hxe⟩ := mem_sortedEntries.1 he
        obtain ⟨name, mode, t⟩ := x
        rw [← hxe]
        refine ⟨names _ hx, ?_, below _ hx⟩
        have hmode : mode = t.mode? := agree _ hx
        rw [hmode] at hkeeps
        cases t with
        | gone => simp [keeps, mode?] at hkeeps
        | node st xattrs target entries =>
            simp only [keeps, mode?, Bool.and_eq_true] at hkeeps
            exact hkeeps.2
      · cases he

/-- The names of a static directory stand in strictly ascending order. -/
theorem Static.ascending {t : SourceTree} (h : Static t) :
    t.kept.Pairwise fun a b => a.1 < b.1 := by
  cases h with
  | gone => exact .nil
  | node st xattrs target entries names distinct agree below =>
      rw [SourceTree.kept]
      split
      · have htotal : Std.Total fun a b : Bytes × SourceTree =>
            a.1 ≤ b.1 := ⟨fun a b => List.le_total a.1 b.1⟩
        have htrans : IsTrans (Bytes × SourceTree) fun a b => a.1 ≤ b.1 :=
          ⟨fun a b c => List.le_trans⟩
        have hsorted := List.pairwise_insertionSort
          (fun a b : Bytes × SourceTree => a.1 ≤ b.1)
          ((entries.filter keeps).map fun e => (e.1, e.2.2))
        have hnodup : ((sortedEntries entries).map Prod.fst).Nodup := by
          rw [((sortedEntries_perm entries).map _).nodup_iff, List.map_map]
          exact (distinct.sublist
            (List.filter_sublist.map Prod.fst))
        have hne := List.pairwise_map.1 hnodup
        exact (hsorted.and hne).imp fun ⟨hle, hne⟩ =>
          Std.lt_of_le_of_ne hle hne
      · exact .nil

/-- The names of a path in a static tree. -/
theorem Static.components {t s : SourceTree} {path : List Bytes}
    (h : Static t) (hnamed : Named t path s) :
    ∀ c ∈ path, Component c := by
  induction hnamed with
  | here t supported => exact fun c hc => by cases hc
  | entry t e path s listed rest ih =>
      obtain ⟨hname, -, hbelow⟩ := h.kept listed
      intro c hc
      rcases List.mem_cons.1 hc with rfl | hc
      · exact hname
      · exact ih hbelow c hc

/-- Each name stands for one entry. -/
theorem Static.index_unique {t : SourceTree} (h : Static t) {i j : Nat}
    {e e' : Bytes × SourceTree} (he : t.kept[i]? = some e)
    (he' : t.kept[j]? = some e') (hname : e.1 = e'.1) : i = j := by
  have hasc := List.pairwise_iff_getElem.1 h.ascending
  obtain ⟨hi, rfl⟩ := List.getElem?_eq_some_iff.1 he
  obtain ⟨hj, rfl⟩ := List.getElem?_eq_some_iff.1 he'
  rcases Nat.lt_trichotomy i j with hlt | heq | hgt
  · exact absurd (hname ▸ hasc i j hi hj hlt) Std.lt_irrefl
  · exact heq
  · exact absurd (hname ▸ hasc j i hj hi hgt) Std.lt_irrefl

/-- What lies below in a static tree is static. -/
theorem Static.named {t s : SourceTree} {path : List Bytes}
    (h : Static t) (hnamed : Named t path s) : Static s := by
  induction hnamed with
  | here t supported => exact h
  | entry t e path s listed rest ih => exact ih (h.kept listed).2.2

/-- Nothing that was listed is gone when it is visited, and names are C
strings. -/
def Found (t : SourceTree) : Prop :=
  ∀ path s, Named t path s → ∀ e ∈ s.kept, 0 ∉ e.1 ∧ e.2.supported = true

/-- What is listed in a static tree is there. -/
theorem Static.found {t : SourceTree} (h : Static t) : Found t := by
  intro path s hnamed e he
  obtain ⟨hname, hsup, -⟩ := (h.named hnamed).kept he
  exact ⟨hname.2.1, hsup⟩

/-- What is no directory keeps none. -/
theorem kept_of_not_isDir {t : SourceTree} (h : t.isDir = false) :
    t.kept = [] := by
  cases t with
  | gone => rfl
  | node st xattrs target entries =>
      have hdir : sIsDir st.mode.toNat = false := h
      rw [kept, hdir]
      rfl

/-- A regular file is no directory. -/
theorem isDir_of_isReg {t : SourceTree} (h : t.isReg = true) :
    t.isDir = false := by
  cases t with
  | gone => rfl
  | node st xattrs target entries =>
      have hreg : sIsReg st.mode.toNat = true := h
      simp only [sIsReg, decide_eq_true_eq] at hreg
      simp [isDir, sIsDir, hreg]

/-- A regular file keeps no entries. -/
theorem kept_of_isReg {t : SourceTree} (h : t.isReg = true) : t.kept = [] :=
  kept_of_not_isDir (isDir_of_isReg h)

/-- Directories are supported. -/
theorem supported_of_isDir {st : Stat} {xattrs : Xattrs} {target : Bytes}
    {entries : List Listed} (h : sIsDir st.mode.toNat = true) :
    (SourceTree.node st xattrs target entries).supported = true := by
  simp [supported, isSupported, h]

/-- The kinds exclude each other. -/
theorem not_lnk_reg_of_dir {mode : Nat} (h : sIsDir mode = true) :
    sIsLnk mode = false ∧ sIsReg mode = false := by
  simp only [sIsDir, decide_eq_true_eq] at h
  simp [sIsLnk, sIsReg, h]

/-- A mode of a regular file is of no other type. -/
theorem not_lnk_of_reg {mode : Nat} (h : sIsReg mode = true) :
    sIsLnk mode = false ∧ sIsDir mode = false := by
  simp only [sIsReg, decide_eq_true_eq] at h
  simp [sIsLnk, sIsDir, h]

/-- A mode of a link is of no other type. -/
theorem not_reg_dir_of_lnk {mode : Nat} (h : sIsLnk mode = true) :
    sIsReg mode = false ∧ sIsDir mode = false := by
  simp only [sIsLnk, decide_eq_true_eq] at h
  simp [sIsReg, sIsDir, h]

/-- A sum over the kept entries does not depend on their order. -/
theorem sum_sortedEntries (g : Bytes × SourceTree → Nat)
    (entries : List Listed) :
    ((sortedEntries entries).map g).sum
      = ((entries.filter keeps).map fun e => g (e.1, e.2.2)).sum := by
  rw [((sortedEntries_perm entries).map g).sum_nat, List.map_map]
  rfl

/-- What the kept entries take: their names, and what is below them. -/
theorem extents_eq (entries : List Listed) :
    extents entries
      = namesLen ((sortedEntries entries).map Prod.fst)
        + ((sortedEntries entries).map fun e => e.2.extent).sum := by
  rw [namesLen, List.map_map, sum_sortedEntries, sum_sortedEntries]
  induction entries with
  | nil => rfl
  | cons e es ih =>
      rw [extents, ih, List.filter_cons]
      by_cases he : keeps e = true
      · rw [if_pos he, if_pos he]
        simp only [List.map_cons, List.sum_cons, Function.comp]
        omega
      · rw [if_neg he, if_neg he, Nat.zero_add]

/-- A directory ends where the last of its entries does. -/
theorem extent_dir {st : Stat} {xattrs : Xattrs} {target : Bytes}
    {entries : List Listed} (h : sIsDir st.mode.toNat = true) (off : Nat) :
    off + (SourceTree.node st xattrs target entries).extent
      = headEnd off xattrs (sortedEntries entries)
        + ((sortedEntries entries).map fun e => e.2.extent).sum := by
  obtain ⟨hlnk, hreg⟩ := not_lnk_reg_of_dir h
  rw [extent, hlnk, hreg, h, extents_eq, headEnd]
  simp only [Bool.false_eq_true, if_false, if_true]
  omega

/-- A regular file takes its node and the attributes. -/
theorem extent_reg {st : Stat} {xattrs : Xattrs} {target : Bytes}
    {entries : List Listed} (h : sIsReg st.mode.toNat = true) :
    (SourceTree.node st xattrs target entries).extent
      = nodeSize + xattrsLen xattrs := by
  rw [extent, (not_lnk_of_reg h).1, h]
  rfl

/-- A link takes its node, the attributes and the target. -/
theorem extent_lnk {st : Stat} {xattrs : Xattrs} {target : Bytes}
    {entries : List Listed} (h : sIsLnk st.mode.toNat = true) :
    (SourceTree.node st xattrs target entries).extent
      = nodeSize + xattrsLen xattrs + ((linkName target).length + 1) := by
  rw [extent, h]
  rfl

/-- What is not supported takes nothing. -/
theorem extent_unsupported {t : SourceTree} (h : t.supported = false) :
    t.extent = 0 := by
  cases t with
  | gone => rfl
  | node st xattrs target entries =>
      simp only [supported, isSupported, Bool.or_eq_false_iff] at h
      rw [extent, h.1.1, h.1.2, h.2]
      rfl

/-- All else has room for a node. -/
theorem nodeSize_le_extent {t : SourceTree} (h : t.supported = true) :
    nodeSize ≤ t.extent := by
  cases t with
  | gone => cases h
  | node st xattrs target entries =>
      simp only [supported, isSupported, Bool.or_eq_true] at h
      rw [extent]
      rcases h with (h | h) | h
      · rw [if_pos h]
        omega
      · rw [(not_lnk_of_reg h).1, if_pos h]
        simp only [Bool.false_eq_true, if_false]
        omega
      · obtain ⟨hlnk, hreg⟩ := not_lnk_reg_of_dir h
        rw [hlnk, hreg, if_pos h]
        simp only [Bool.false_eq_true, if_false]
        omega

variable {off : Nat} {xattrs : Xattrs} {es : List (Bytes × SourceTree)}

/-- The entries come behind the head of the directory. -/
theorem headEnd_le_childPos (i : Nat) :
    headEnd off xattrs es ≤ childPos off xattrs es i :=
  Nat.le_add_right _ _

/-- Each begins where the one before it ends. -/
theorem childPos_succ {i : Nat} {e : Bytes × SourceTree}
    (h : es[i]? = some e) :
    childPos off xattrs es (i + 1)
      = childPos off xattrs es i + e.2.extent := by
  rw [childPos, childPos, List.take_add_one, h, List.map_append,
    List.sum_append]
  simp only [Option.toList_some, List.map_cons, List.map_nil, List.sum_cons,
    List.sum_nil]
  omega

/-- So they are in order. -/
theorem childPos_mono {i j : Nat} (h : i ≤ j) :
    childPos off xattrs es i ≤ childPos off xattrs es j := by
  induction j with
  | zero => rw [Nat.le_zero.1 h]
  | succ j ih =>
      rcases Nat.lt_or_eq_of_le h with hlt | heq
      · refine Nat.le_trans (ih (by omega)) ?_
        cases he : es[j]? with
        | none =>
            have hle := List.getElem?_eq_none_iff.1 he
            rw [childPos, childPos, List.take_of_length_le hle,
              List.take_of_length_le (by omega)]
        | some e =>
            rw [childPos_succ he]
            exact Nat.le_add_right _ _
      · rw [heq]

/-- The bytes of different entries do not meet. -/
theorem childPos_disjoint {i j : Nat} {e : Bytes × SourceTree}
    (h : es[i]? = some e) (hij : i < j) :
    childPos off xattrs es i + e.2.extent ≤ childPos off xattrs es j := by
  rw [← childPos_succ h]
  exact childPos_mono hij

/-- An address belongs to one entry. -/
theorem childPos_unique {i j a : Nat} {e e' : Bytes × SourceTree}
    (h : es[i]? = some e) (h' : es[j]? = some e')
    (hlo : childPos off xattrs es i ≤ a)
    (hhi : a < childPos off xattrs es i + e.2.extent)
    (hlo' : childPos off xattrs es j ≤ a)
    (hhi' : a < childPos off xattrs es j + e'.2.extent) : i = j := by
  rcases Nat.lt_trichotomy i j with hlt | heq | hgt
  · have := @childPos_disjoint off xattrs _ _ _ _ h hlt
    omega
  · exact heq
  · have := @childPos_disjoint off xattrs _ _ _ _ h' hgt
    omega

/-- The visit of an entry ends where the next one starts, at the latest
where the directory ends. -/
theorem childPos_end {i : Nat} {e : Bytes × SourceTree}
    (h : es[i]? = some e) :
    childPos off xattrs es i + e.2.extent
      ≤ headEnd off xattrs es + (es.map fun e => e.2.extent).sum := by
  have hlen : childPos off xattrs es es.length
      = headEnd off xattrs es + (es.map fun e => e.2.extent).sum := by
    rw [childPos, List.take_length]
  rw [← childPos_succ h, ← hlen]
  obtain ⟨hlt, -⟩ := List.getElem?_eq_some_iff.1 h
  exact childPos_mono hlt

/-- A node lies within the bytes of the visit that wrote it, and is
followed by what its own visit wrote. -/
theorem Placed.within {off p : Nat} {t s : SourceTree} {path : List Bytes}
    (h : Placed off t path p s) :
    s.supported = true ∧ off ≤ p ∧ p + s.extent ≤ off + t.extent := by
  induction h with
  | here off t supported =>
      exact ⟨supported, Nat.le_refl _, Nat.le_refl _⟩
  | entry off st xattrs target entries i e path p s isDir listed rest ih =>
      obtain ⟨hsup, hlo, hhi⟩ := ih
      have hhead : off ≤ headEnd off xattrs (sortedEntries entries) := by
        rw [headEnd]
        omega
      have hstart := @headEnd_le_childPos off xattrs (sortedEntries entries) i
      have hend := @childPos_end off xattrs _ _ _ listed
      rw [extent_dir isDir]
      exact ⟨hsup, by omega, by omega⟩

/-- Where something is placed, there is something to visit. -/
theorem Placed.root {off p : Nat} {t s : SourceTree} {path : List Bytes}
    (h : Placed off t path p s) : t.supported = true := by
  cases h with
  | here _ _ supported => exact supported
  | entry _ _ _ _ _ _ _ _ _ _ isDir _ _ => exact supported_of_isDir isDir

/-- Every named node is placed, wherever the visit starts. -/
theorem Named.placed {t s : SourceTree} {path : List Bytes}
    (h : Named t path s) : ∀ off, ∃ p, Placed off t path p s := by
  induction h with
  | here t supported => exact fun off => ⟨off, .here off t supported⟩
  | entry t e path s listed rest ih =>
      intro off
      cases t with
      | gone => cases listed
      | node st xattrs target entries =>
          rw [kept] at listed
          split at listed
          · next isDir =>
            obtain ⟨i, hi⟩ := List.mem_iff_getElem?.1 listed
            obtain ⟨p, hp⟩ := ih
              (childPos off xattrs (sortedEntries entries) i)
            exact ⟨p, .entry off st xattrs target entries i e path p s isDir
              hi hp⟩
          · cases listed

/-- What has a place has a name. -/
theorem Placed.named {off p : Nat} {t s : SourceTree} {path : List Bytes}
    (h : Placed off t path p s) : Named t path s := by
  induction h with
  | here off t supported => exact .here t supported
  | entry off st xattrs target entries i e path p s isDir listed rest ih =>
      refine .entry _ e path s ?_ ih
      rw [kept, if_pos isDir]
      exact List.mem_of_getElem? listed

/-- A place below a place. -/
theorem Placed.append {off p q : Nat} {t s u : SourceTree}
    {path path' : List Bytes} (h : Placed off t path p s)
    (h' : Placed p s path' q u) : Placed off t (path ++ path') q u := by
  induction h with
  | here off t supported => exact h'
  | entry off st xattrs target entries i e path p s isDir listed rest ih =>
      exact .entry off st xattrs target entries i e _ q u isDir listed (ih h')

/-- The empty path leads to the tree itself. -/
theorem placed_nil_iff {off p : Nat} {t s : SourceTree} :
    Placed off t [] p s ↔ t.supported = true ∧ p = off ∧ s = t := by
  constructor
  · intro h
    cases h with
    | here _ _ supported => exact ⟨supported, rfl, rfl⟩
  · rintro ⟨h, rfl, rfl⟩
    exact .here _ _ h

/-- A longer path goes through an entry. -/
theorem placed_cons_iff {off p : Nat} {t s : SourceTree} {c : Bytes}
    {path : List Bytes} :
    Placed off t (c :: path) p s
      ↔ ∃ i e, t.kept[i]? = some e ∧ e.1 = c
        ∧ Placed (childPos off t.attrs t.kept i) e.2 path p s := by
  constructor
  · intro h
    cases h with
    | entry _ st xattrs target entries i e _ _ _ isDir listed rest =>
        have hkept : (SourceTree.node st xattrs target entries).kept
            = sortedEntries entries := if_pos isDir
        rw [hkept]
        exact ⟨i, e, listed, rfl, rest⟩
  · rintro ⟨i, e, hi, rfl, rest⟩
    have hdir := isDir_of_kept (List.mem_of_getElem? hi)
    cases t with
    | gone => cases hdir
    | node st xattrs target entries =>
        have hkept : (SourceTree.node st xattrs target entries).kept
            = sortedEntries entries := if_pos hdir
        rw [hkept] at hi rest
        exact .entry off st xattrs target entries i e path p s hdir hi rest

/-- Visits nest: a node within the bytes of another one's visit lies
below it. -/
theorem Placed.nested {off p p' : Nat} {t s s' : SourceTree}
    {path path' : List Bytes} (h : Placed off t path p s)
    (h' : Placed off t path' p' s') (hlo : p' ≤ p)
    (hhi : p < p' + s'.extent) :
    ∃ rest, path = path' ++ rest ∧ Placed p' s' rest p s := by
  induction path' generalizing off t path with
  | nil =>
      obtain ⟨-, rfl, rfl⟩ := placed_nil_iff.1 h'
      exact ⟨path, rfl, h⟩
  | cons c path' ih =>
      obtain ⟨i, e, hi, rfl, rest'⟩ := placed_cons_iff.1 h'
      have hwithin' := rest'.within
      cases path with
      | nil =>
          -- the directory's own node comes before its entries
          obtain ⟨-, hp, -⟩ := placed_nil_iff.1 h
          have hstart := @headEnd_le_childPos off t.attrs t.kept i
          have hnode : nodeSize = 72 := rfl
          rw [headEnd] at hstart
          omega
      | cons c path =>
          obtain ⟨j, e', hj, rfl, rest⟩ := placed_cons_iff.1 h
          have hwithin := rest.within
          have hsize := nodeSize_le_extent hwithin.1
          have hnode : nodeSize = 72 := rfl
          have hij := @childPos_unique off t.attrs t.kept i j p e e' hi hj
            (by omega) (by omega) (by omega) (by omega)
          subst hij
          rw [hi, Option.some.injEq] at hj
          subst hj
          obtain ⟨tail, rfl, htail⟩ := ih rest rest'
          exact ⟨tail, rfl, htail⟩

/-- Below a regular file there is only itself. -/
theorem Placed.of_isReg {p p' : Nat} {s s' : SourceTree}
    {rest : List Bytes} (h : Placed p' s' rest p s) (hreg : s'.isReg = true) :
    rest = [] ∧ p = p' ∧ s = s' := by
  cases rest with
  | nil => exact ⟨rfl, (placed_nil_iff.1 h).2⟩
  | cons c rest =>
      obtain ⟨i, e, hi, -⟩ := placed_cons_iff.1 h
      rw [kept_of_isReg hreg] at hi
      cases hi

/-- The nodes of different regular files do not meet. -/
theorem Placed.reg_apart {off p p' : Nat} {t s s' : SourceTree}
    {path path' : List Bytes} (h : Placed off t path p s)
    (h' : Placed off t path' p' s') (hs : s.isReg = true)
    (hs' : s'.isReg = true) (hne : p ≠ p') :
    p + nodeSize ≤ p' ∨ p' + nodeSize ≤ p := by
  have hsize := nodeSize_le_extent h.within.1
  have hsize' := nodeSize_le_extent h'.within.1
  rcases Nat.lt_or_ge p p' with hlt | hge
  · rcases Nat.lt_or_ge p' (p + s.extent) with hin | hout
    · obtain ⟨rest, -, hrest⟩ := h'.nested h (by omega) hin
      exact absurd (hrest.of_isReg hs).2.1.symm hne
    · exact .inl (by omega)
  · rcases Nat.lt_or_ge p (p' + s'.extent) with hin | hout
    · obtain ⟨rest, -, hrest⟩ := h.nested h' hge hin
      exact absurd (hrest.of_isReg hs').2.1 hne
    · exact .inr (by omega)

-- ====================================================== the file bytes

mutual

/-- The bytes of the regular files of a tree, when `sizeAt` says how many
each path has. -/
def dataLen (sizeAt : List Bytes → Nat) : List Bytes → SourceTree → Nat
  | _, .gone => 0
  | path, .node st _ _ entries =>
      if sIsReg st.mode.toNat then sizeAt path
      else if sIsDir st.mode.toNat then dataLens sizeAt path entries
      else 0

/-- The bytes below the entries of a directory. -/
def dataLens (sizeAt : List Bytes → Nat) :
    List Bytes → List (Bytes × Option UInt32 × SourceTree) → Nat
  | _, [] => 0
  | path, e :: es =>
      (if keeps e then dataLen sizeAt (path ++ [e.1]) e.2.2 else 0)
        + dataLens sizeAt path es

end

/-- The data of the kept entries, one after the other. -/
theorem dataLens_eq (sizeAt : List Bytes → Nat) (path : List Bytes)
    (entries : List Listed) :
    dataLens sizeAt path entries
      = ((sortedEntries entries).map fun e =>
          dataLen sizeAt (path ++ [e.1]) e.2).sum := by
  rw [sum_sortedEntries]
  induction entries with
  | nil => rfl
  | cons e es ih =>
      rw [dataLens, ih, List.filter_cons]
      by_cases he : keeps e = true
      · rw [if_pos he, if_pos he]
        rfl
      · rw [if_neg he, if_neg he, Nat.zero_add]

/-- A regular file is its own data. -/
theorem dataLen_of_isReg {sizeAt : List Bytes → Nat} {path : List Bytes}
    {t : SourceTree} (h : t.isReg = true) :
    dataLen sizeAt path t = sizeAt path := by
  cases t with
  | gone => cases h
  | node st xattrs target entries => exact if_pos h

/-- The data of a directory are those of its entries. -/
theorem dataLen_of_isDir {sizeAt : List Bytes → Nat} {path : List Bytes}
    {t : SourceTree} (h : t.isDir = true) :
    dataLen sizeAt path t
      = (t.kept.map fun e => dataLen sizeAt (path ++ [e.1]) e.2).sum := by
  cases t with
  | gone => cases h
  | node st xattrs target entries =>
      have hdir : sIsDir st.mode.toNat = true := h
      have hkept : (SourceTree.node st xattrs target entries).kept
          = sortedEntries entries := if_pos hdir
      rw [hkept, dataLen, (not_lnk_reg_of_dir hdir).2, if_neg (by simp),
        if_pos hdir, dataLens_eq]

end SourceTree

end Distfs

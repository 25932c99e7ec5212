/-
Path lookup in the image of a static tree (`get_node_offset`,
`get_child`, `find_entity`), against the tree and against `get_dir`.

# The walk

A path of components is followed one component at a time (`follow`), and
`getNodeOffset_pathOf` says that the character loop of the code does
just this. What is left is one step: `get_child` at the records of a
directory.

# One step, and where it goes wrong

`get_child` looks for the entries right behind the node, where the
extended attributes are if there are any; and `find_entity` adds two
`int` indices. So it is exact in a directory that has no attributes (or
no entries) and not more than `2 ^ 30 + 1` entries, `Plain`. In every
other directory of a static tree some entry is not found where it is
listed: with attributes in front, no entry's node can be the answer the
first of them gives away, so by counting some entry gets none; with too
many entries the search for the last name overflows.
-/
import Distfs.Meta.MetaFileSystem
import Distfs.Meta.ScanDfs
import Mathlib.Data.Fintype.EquivFin

namespace Distfs

open SourceTree

namespace MetaFileSystem

variable {m : Mem}

-- ========================================================= the walk

/-- The path `/c1/.../ck`, and `/` of no components. -/
def pathOf : List Bytes → Bytes
  | [] => [47]
  | c :: cs => slashed (c :: cs)

/-- Component after component. -/
def follow (m : Mem) (offset : Nat) : List Bytes → Option (ErrorCode × Nat)
  | [] => some (.ok, offset)
  | c :: cs =>
      match getChild m offset c with
      | none => none
      | some n => if n = 0 then some (.notFound, 0) else follow m n cs

/-- The walk collects a component byte by byte. -/
theorem walk_append {c : Bytes} (hc : 47 ∉ c) (rest : Bytes) (offset : Nat) :
    ∀ name, walk m (c ++ rest) offset name
      = walk m rest offset (name ++ c) := by
  induction c with
  | nil => intro name; rw [List.nil_append, List.append_nil]
  | cons b c ih =>
      intro name
      have hb : b ≠ 47 := fun h => hc (h ▸ List.mem_cons_self)
      rw [List.cons_append, walk, if_neg hb,
        ih (fun h => hc (List.mem_cons_of_mem _ h)), List.append_assoc]
      rfl

/-- The walk follows what it has collected at each slash. -/
theorem walk_slashed (cs : List Bytes) :
    ∀ (c : Bytes) (offset : Nat), (∀ x ∈ c :: cs, Component x) →
      walk m (c ++ slashed cs) offset [] = follow m offset (c :: cs) := by
  induction cs with
  | nil =>
      intro c offset h
      obtain ⟨hne, -, hslash⟩ := h c List.mem_cons_self
      rw [walk_append hslash, List.nil_append, slashed, List.flatMap_nil, walk,
        if_pos hne]
      rfl
  | cons d cs ih =>
      intro c offset h
      obtain ⟨-, -, hslash⟩ := h c List.mem_cons_self
      have hrest : slashed (d :: cs) = 47 :: (d ++ slashed cs) := by
        rw [slashed, List.flatMap_cons]
        rfl
      rw [walk_append hslash, List.nil_append, hrest, walk, if_pos rfl, follow]
      cases getChild m offset c with
      | none => rfl
      | some n =>
          simp only
          split
          · rfl
          · exact ih d n fun x hx => h x (List.mem_cons_of_mem _ hx)

/-- `get_node_offset` follows the components of the path. -/
theorem getNodeOffset_pathOf {cs : List Bytes}
    (h : ∀ c ∈ cs, Component c) :
    getNodeOffset m (pathOf cs) = follow m usizeSize cs := by
  cases cs with
  | nil => rfl
  | cons c cs =>
      have hpath : pathOf (c :: cs) = 47 :: (c ++ slashed cs) := by
        rw [pathOf, slashed, List.flatMap_cons]
        rfl
      rw [hpath, getNodeOffset, if_pos rfl]
      exact walk_slashed cs c usizeSize h

/-- A path behind a path. -/
theorem follow_append {cs ds : List Bytes} {offset p : Nat}
    (h : follow m offset cs = some (.ok, p)) :
    follow m offset (cs ++ ds) = follow m p ds := by
  induction cs generalizing offset with
  | nil =>
      cases h
      rfl
  | cons c cs ih =>
      rw [List.cons_append, follow]
      rw [follow] at h
      cases hc : getChild m offset c with
      | none =>
          rw [hc] at h
          cases h
      | some n =>
          rw [hc] at h
          simp only at h ⊢
          split at h
          · cases h
          · next hn =>
            rw [if_neg hn]
            exact ih h

-- ======================================================= the search

/-- The names stand in the image where the entries at `ents` point. -/
def Names (m : Mem) (ents : Nat) (names : List Bytes) : Prop :=
  ∀ i s, names[i]? = some s →
    0 ∉ s ∧ m.CStr (Entry.nameOffset m ents i) s

/-- How `find_entity` compares. -/
def compareName (m : Mem) (ents : Nat) (name : Bytes) (i : Nat) : Ordering :=
  m.strcmp (Entry.nameOffset m ents i) name

/-- The last index, as an `int`. -/
theorem toInt32_pred {n : Nat} (hpos : 0 < n) (h : n ≤ 2 ^ 31) :
    toInt32 (n - 1) = (n : Int) - 1 := by
  rw [toInt32, if_pos (by omega)]
  omega

section Search

variable {ents : Nat} {names : List Bytes} {name : Bytes}

/-- The comparison at an index finds the name that is there. -/
theorem compareName_eq_iff (hnames : Names m ents names) (h0 : 0 ∉ name)
    {i : Nat} {s : Bytes} (hs : names[i]? = some s) :
    compareName m ents name i = .eq ↔ s = name :=
  Mem.strcmp_eq_iff (hnames i s hs).2 (hnames i s hs).1 h0

/-- It finds names that are less as less. -/
theorem compareName_lt_iff (hnames : Names m ents names) (h0 : 0 ∉ name)
    {i : Nat} {s : Bytes} (hs : names[i]? = some s) :
    compareName m ents name i = .lt ↔ s < name :=
  Mem.strcmp_lt_iff (hnames i s hs).2 h0

/-- So sorted names compare in ascending order. -/
theorem compareName_ascending (hnames : Names m ents names)
    (hasc : names.Pairwise (· < ·)) (h0 : 0 ∉ name) :
    BinarySearch.Ascending (compareName m ents name) names.length := by
  have hget : ∀ i, i < names.length → names[i]? = some (names.getD i []) := by
    intro i hi
    rw [List.getD_eq_getElem _ _ hi, List.getElem?_eq_getElem hi]
  refine BinarySearch.ascending_of_lt (x := fun i => names.getD i [])
    (fun i hi => compareName_lt_iff hnames h0 (hget i hi))
    (fun i hi => compareName_eq_iff hnames h0 (hget i hi)) ?_
  intro i j hij hj
  rw [List.getD_eq_getElem _ _ hj,
    List.getD_eq_getElem _ _ (Nat.lt_trans hij hj)]
  exact List.pairwise_iff_getElem.1 hasc i j _ hj hij

/-- In an array that is small enough `find_entity` is exact. -/
theorem findEntity_spec (hnames : Names m ents names)
    (hasc : names.Pairwise (· < ·)) (hlen : names.length ≤ 2 ^ 30 + 1)
    (h0 : 0 ∉ name) :
    ∃ r, findEntity m name ents names.length = some r
      ∧ (∀ i, names[i]? = some name → r = Entry.dataOffset m ents i)
      ∧ (name ∉ names → r = 0) := by
  rw [findEntity]
  rcases Nat.eq_zero_or_pos names.length with hzero | hpos
  · rw [if_pos hzero]
    refine ⟨0, rfl, fun i hi => ?_, fun _ => rfl⟩
    rw [List.length_eq_zero_iff.1 hzero] at hi
    cases hi
  · rw [if_neg (by omega), toInt32_pred hpos (by omega)]
    have hlimit : 2 * (names.length : Int) - 3 ≤ intMax := by
      rw [intMax]
      omega
    obtain ⟨r, hfind, hr⟩ := BinarySearch.find_spec
      (compareName_ascending hnames hasc h0) hpos hlimit
    have hfind' : BinarySearch.find (fun i => m.strcmp
        (Entry.nameOffset m ents i) name) intMax 0 ((names.length : Int) - 1)
        = some r := hfind
    rw [hfind']
    cases r with
    | none =>
        refine ⟨0, rfl, fun i hi => ?_, fun _ => rfl⟩
        obtain ⟨hlt, -⟩ := List.getElem?_eq_some_iff.1 hi
        have := (hr i hlt).1 ((compareName_eq_iff hnames h0 hi).2 rfl)
        cases this
    | some k =>
        refine ⟨_, rfl, fun i hi => ?_, fun hmem => ?_⟩
        · obtain ⟨hlt, -⟩ := List.getElem?_eq_some_iff.1 hi
          have := (hr i hlt).1 ((compareName_eq_iff hnames h0 hi).2 rfl)
          cases this
          rfl
        · obtain ⟨hlt, heq⟩ := BinarySearch.find_index
            (n := names.length) (Int.le_refl 0) (by omega) (by omega) hfind
          have hs := List.getElem?_eq_getElem hlt
          have := (compareName_eq_iff hnames h0 hs).1 heq
          exact absurd (this ▸ List.getElem_mem hlt) hmem

/-- In a larger one the search for the last name overflows. -/
theorem findEntity_overflow (hnames : Names m ents names)
    (hasc : names.Pairwise (· < ·)) (hlen : 2 ^ 30 + 1 < names.length)
    (hint : names.length ≤ 2 ^ 31)
    (hlast : names[names.length - 1]? = some name) :
    findEntity m name ents names.length = none := by
  have h0 : 0 ∉ name := (hnames _ name hlast).1
  have hoverflow : BinarySearch.find (compareName m ents name) intMax 0
      ((names.length : Int) - 1) = none := by
    refine BinarySearch.find_overflow (Int.le_refl 0) (by omega) ?_
      (by rw [intMax]; omega)
    intro i hi
    have hs := List.getElem?_eq_getElem (l := names) (i := i) (by omega)
    refine (compareName_lt_iff hnames h0 hs).2 ?_
    obtain ⟨hlt, hname⟩ := List.getElem?_eq_some_iff.1 hlast
    rw [← hname]
    exact List.pairwise_iff_getElem.1 hasc i _ (by omega) hlt (by omega)
  rw [findEntity, if_neg (by omega), toInt32_pred (by omega) hint]
  have hoverflow' : BinarySearch.find (fun i => m.strcmp
      (Entry.nameOffset m ents i) name) intMax 0 ((names.length : Int) - 1)
      = none := hoverflow
  rw [hoverflow']

end Search

/-- Whatever is at `ents`, an answer comes from one of the entries. -/
theorem findEntity_index {name : Bytes} {ents n r : Nat}
    (hn : n ≤ 2 ^ 31) (h : findEntity m name ents n = some r) (hr : r ≠ 0) :
    ∃ j, j < n ∧ r = Entry.dataOffset m ents j := by
  rw [findEntity] at h
  split at h
  · cases h
    exact absurd rfl hr
  · next hpos =>
    rw [toInt32_pred (by omega) hn] at h
    split at h
    · cases h
    · cases h
      exact absurd rfl hr
    · next j hfind =>
      rw [Option.some.injEq] at h
      exact ⟨j, (BinarySearch.find_index (n := n) (Int.le_refl 0)
        (by omega) (by omega) hfind).1, h.symm⟩

-- ========================================================= one step

/-- Every directory has few enough entries, and no attributes unless it
is empty. -/
def Plain (t : SourceTree) : Prop :=
  ∀ path s, Named t path s →
    s.kept.length ≤ 2 ^ 30 + 1 ∧ (s.kept ≠ [] → s.attrs = [])

section Step

variable {off : Nat} {t : SourceTree} {name : Bytes}

/-- What is below a plain tree is plain. -/
theorem Plain.below (h : Plain t) {e : Bytes × SourceTree}
    (he : e ∈ t.kept) : Plain e.2 :=
  fun path s hnamed => h _ s (.entry t e path s he hnamed)

/-- The names of a directory, where its own `data_offset` points. -/
theorem names_of_at (hat : At m off t) (hstatic : Static t)
    (hdir : t.isDir = true) :
    Names m (direntsPos off t.attrs) (t.kept.map Prod.fst)
      ∧ (t.kept.map Prod.fst).Pairwise (· < ·) := by
  obtain ⟨⟨mode, hrecords⟩, -⟩ := hat.records hdir
  refine ⟨fun i s hs => ?_, List.pairwise_map.2 hstatic.ascending⟩
  obtain ⟨e, he, rfl⟩ := List.mem_map.1 (List.mem_of_getElem? hs)
  have h0 := (hstatic.kept he).1.2.1
  exact ⟨h0, (hrecords.node.name i e.1 hs).2.2 h0⟩

/-- In a directory `get_child` searches right behind the node. -/
theorem getChild_dir (hat : At m off t) (hsup : t.supported = true)
    (hdir : t.isDir = true) (hlen : t.kept.length < 2 ^ 32) :
    getChild m off name
      = findEntity m name (off + nodeSize) t.kept.length := by
  obtain ⟨⟨mode, hrecords⟩, -⟩ := hat.records hdir
  have hlength := hrecords.node.length
  rw [List.length_map] at hlength
  rw [getChild, (hat.kind hsup).1, hdir, if_neg (by simp), hlength,
    uint32_of_lt hlen]

/-- No entry is at the null offset. -/
theorem childPos_pos (i : Nat) : childPos off t.attrs t.kept i ≠ 0 := by
  have hnode : nodeSize = 72 := rfl
  have := @headEnd_le_childPos off t.attrs t.kept i
  rw [headEnd] at this
  omega

/-- With nothing in front of the entries, and not too many of them,
`get_child` is exact. -/
theorem getChild_plain (hat : At m off t) (hsup : t.supported = true)
    (hstatic : Static t) (hlen : t.kept.length ≤ 2 ^ 30 + 1)
    (hattrs : t.kept ≠ [] → t.attrs = []) (h0 : 0 ∉ name) :
    ∃ r, getChild m off name = some r
      ∧ (∀ i e, t.kept[i]? = some e → e.1 = name →
        r = childPos off t.attrs t.kept i)
      ∧ ((∀ e ∈ t.kept, e.1 ≠ name) → r = 0) := by
  cases hdir : t.isDir with
  | false =>
      refine ⟨0, ?_, fun i e he => ?_, fun _ => rfl⟩
      · rw [getChild, (hat.kind hsup).1, hdir, if_pos rfl]
      · rw [kept_of_not_isDir hdir] at he
        cases he
  | true =>
      rw [getChild_dir hat hsup hdir (by omega)]
      by_cases hempty : t.kept = []
      · refine ⟨0, ?_, fun i e he => ?_, fun _ => rfl⟩
        · rw [hempty]
          rfl
        · rw [hempty] at he
          cases he
      · obtain ⟨hnames, hasc⟩ := names_of_at hat hstatic hdir
        obtain ⟨⟨mode, hrecords⟩, -⟩ := hat.records hdir
        have hpos : direntsPos off t.attrs = off + nodeSize := by
          rw [hattrs hempty]
          rfl
        rw [hpos] at hnames
        obtain ⟨r, hfind, hfound, hmissing⟩ := findEntity_spec hnames hasc
          (by rwa [List.length_map]) h0
        rw [List.length_map] at hfind
        refine ⟨r, hfind, fun i e he hname => ?_, fun hne => hmissing ?_⟩
        · have hi : (t.kept.map Prod.fst)[i]? = some name := by
            rw [List.getElem?_map, he]
            exact congrArg some hname
          have hchild := hrecords.child i e he
          rw [(hstatic.kept (List.mem_of_getElem? he)).2.1, if_pos rfl, hpos]
            at hchild
          rw [hfound i hi, hchild]
        · intro hmem
          obtain ⟨e, he, hname⟩ := List.mem_map.1 hmem
          exact hne e he hname

end Step

-- ======================================================== resolution

/-- In a plain tree the walk finds what the path names, and nothing
else. -/
theorem follow_plain (cs : List Bytes) :
    ∀ (off : Nat) (t : SourceTree), At m off t → t.supported = true →
      Static t → Plain t → (∀ c ∈ cs, Component c) →
      ∃ r, follow m off cs = some r
        ∧ ∀ p, r = (.ok, p) ↔ ∃ s, Placed off t cs p s := by
  induction cs with
  | nil =>
      intro off t hat hsup hstatic hplain _
      refine ⟨_, rfl, fun p => ⟨fun h => ?_, fun ⟨s, hs⟩ => ?_⟩⟩
      · cases h
        exact ⟨t, .here off t hsup⟩
      · rw [(placed_nil_iff.1 hs).2.1]
  | cons c cs ih =>
      intro off t hat hsup hstatic hplain hcs
      obtain ⟨hlen, hattrs⟩ := hplain [] t (.here t hsup)
      obtain ⟨r, hchild, hfound, hmissing⟩ := getChild_plain hat hsup hstatic
        hlen hattrs (hcs c List.mem_cons_self).2.1
      rw [follow, hchild]
      by_cases hname : ∃ e ∈ t.kept, e.1 = c
      · obtain ⟨e, he, rfl⟩ := hname
        obtain ⟨i, hi⟩ := List.mem_iff_getElem?.1 he
        obtain ⟨-, hsup', hstatic'⟩ := hstatic.kept he
        have hr := hfound i e hi rfl
        subst hr
        have hat' := (hat.records (isDir_of_kept he)).2 i e hi
        obtain ⟨r, hfollow, hr⟩ := ih _ e.2 hat' hsup' hstatic'
          (hplain.below he) fun x hx => hcs x (List.mem_cons_of_mem _ hx)
        refine ⟨r, ?_, fun p => (hr p).trans ⟨?_, ?_⟩⟩
        · simp only
          rw [if_neg (childPos_pos i)]
          exact hfollow
        · intro ⟨s, hs⟩
          exact ⟨s, placed_cons_iff.2 ⟨i, e, hi, rfl, hs⟩⟩
        · intro ⟨s, hs⟩
          obtain ⟨j, e', hj, hname, hs⟩ := placed_cons_iff.1 hs
          have hij := hstatic.index_unique hi hj hname.symm
          subst hij
          rw [hi, Option.some.injEq] at hj
          subst hj
          exact ⟨s, hs⟩
      · have hr := hmissing fun e he hc => hname ⟨e, he, hc⟩
        subst hr
        refine ⟨(.notFound, 0), rfl, fun p => ⟨fun h => (by cases h), ?_⟩⟩
        intro ⟨s, hs⟩
        obtain ⟨i, e, hi, hc, -⟩ := placed_cons_iff.1 hs
        exact absurd ⟨e, List.mem_of_getElem? hi, hc⟩ hname

/-- What `get_dir` lists from the start: for each entry the position of
the name, and the stat. -/
def listDir (m : Mem) (path : Bytes) :
    Option (ErrorCode × List (Nat × StatReply)) :=
  getDir m path 0 (fun l name st => (false, l ++ [(name, st)])) []

/-- Path lookup agrees with the tree and with listing: a path is found
if and only if it names a node, at that node's offset; and what `get_dir`
lists of a directory are its entries, with the stat of the node that the
entry's path leads to. -/
structure Resolves (m : Mem) (t : SourceTree) : Prop where
  lookup : ∀ cs, (∀ c ∈ cs, Component c) →
    ∃ r, getNodeOffset m (pathOf cs) = some r
      ∧ ∀ p, r = (.ok, p) ↔ ∃ s, Placed usizeSize t cs p s
  listing : ∀ cs p s, Placed usizeSize t cs p s → s.isDir = true →
    ∃ l, listDir m (pathOf cs) = some (.ok, l)
      ∧ l.length = s.kept.length
      ∧ ∀ (i : Nat) (e : Bytes × SourceTree) (x : Nat × StatReply),
        s.kept[i]? = some e → l[i]? = some x →
        m.CStr x.1 e.1
          ∧ ∃ q, getNodeOffset m (pathOf (cs ++ [e.1])) = some (.ok, q)
            ∧ x.2 = getStat m q

/-- A reader that takes all gets all. -/
theorem readEntries_collect (dirents k : Nat) :
    ∀ (i : Nat) (l : List (Nat × StatReply)),
      readEntries (fun l name st => (false, l ++ [(name, st)])) m dirents k i l
        = l ++ (List.range k).map fun j =>
            (Entry.nameOffset m dirents (i + j),
              getStat m (Entry.dataOffset m dirents (i + j))) := by
  induction k with
  | zero => exact fun i l => (List.append_nil l).symm
  | succ k ih =>
      intro i l
      rw [readEntries, if_neg (by simp), ih, List.append_assoc,
        List.range_succ_eq_map, List.map_cons, List.map_map]
      simp only [List.cons_append, List.nil_append, Nat.add_zero,
        Function.comp_def, Nat.succ_eq_add_one, ← Nat.add_assoc,
        Nat.add_right_comm i 1]

/-- The listing of a directory has name and stat of each kept entry. -/
theorem listDir_eq {p : Nat} {s : SourceTree} {path : Bytes}
    (hat : At m p s) (hsup : s.supported = true) (hdir : s.isDir = true)
    (h : getNodeOffset m path = some (.ok, p)) :
    listDir m path = some (.ok, (List.range s.kept.length).map fun j =>
      (Entry.nameOffset m (direntsPos p s.attrs) j,
        getStat m (Entry.dataOffset m (direntsPos p s.attrs) j))) := by
  obtain ⟨⟨mode, hrecords⟩, -⟩ := hat.records hdir
  have hlength := hrecords.node.length
  rw [List.length_map] at hlength
  unfold listDir getDir
  rw [h]
  simp only
  rw [(hat.kind hsup).1, hdir, if_neg (by simp), hlength,
    hrecords.node.dataOffset, readEntries_collect]
  simp only [List.nil_append, Nat.zero_add, Nat.sub_zero]

section Resolution

variable {t : SourceTree} (hat : At m usizeSize t)
  (hsup : t.supported = true) (hstatic : Static t)

include hat hsup hstatic in
/-- In a plain tree every path resolves. -/
theorem resolves_of_plain (hplain : Plain t) : Resolves m t := by
  have hlookup : ∀ cs, (∀ c ∈ cs, Component c) →
      ∃ r, getNodeOffset m (pathOf cs) = some r
        ∧ ∀ p, r = (.ok, p) ↔ ∃ s, Placed usizeSize t cs p s := by
    intro cs hcs
    rw [getNodeOffset_pathOf hcs]
    exact follow_plain cs usizeSize t hat hsup hstatic hplain hcs
  refine ⟨hlookup, fun cs p s hplaced hdir => ?_⟩
  have hstatic' := hstatic.named hplaced.named
  have hcs := hstatic.components hplaced.named
  have hat' := hat.placed hplaced
  obtain ⟨⟨mode, hrecords⟩, -⟩ := hat'.records hdir
  obtain ⟨r, hr, hrp⟩ := hlookup cs hcs
  rw [(hrp p).2 ⟨s, hplaced⟩] at hr
  refine ⟨_, listDir_eq hat' hplaced.within.1 hdir hr, ?_, ?_⟩
  · rw [List.length_map, List.length_range]
  · intro i e x he hx
    have hi : i < s.kept.length := (List.getElem?_eq_some_iff.1 he).1
    rw [List.getElem?_map, List.getElem?_range hi, Option.map_some,
      Option.some.injEq] at hx
    rw [← hx]
    obtain ⟨hname, hsup', -⟩ := hstatic'.kept (List.mem_of_getElem? he)
    have hchild := hrecords.child i e he
    rw [hsup', if_pos rfl] at hchild
    have hi' : (s.kept.map Prod.fst)[i]? = some e.1 := by
      rw [List.getElem?_map, he]
      rfl
    have hstr := (hrecords.node.name i e.1 hi').2.2 hname.2.1
    refine ⟨hstr, _, ?_, congrArg (getStat m) hchild⟩
    have hplaced' := hplaced.append (placed_cons_iff.2
      ⟨i, e, he, rfl, .here (childPos p s.attrs s.kept i) e.2 hsup'⟩)
    obtain ⟨r, hr, hrp⟩ := hlookup (cs ++ [e.1])
      (hstatic.components hplaced'.named)
    rw [hr, (hrp _).2 ⟨_, hplaced'⟩]

include hstatic in
/-- When every path resolves, `get_child` answers the node of every
entry. -/
theorem Resolves.getChild (h : Resolves m t) {cs : List Bytes} {p : Nat}
    {s : SourceTree} (hplaced : Placed usizeSize t cs p s) {i : Nat}
    {e : Bytes × SourceTree} (he : s.kept[i]? = some e) :
    getChild m p e.1 = some (childPos p s.attrs s.kept i) := by
  have hfollow : ∀ {path q u}, Placed usizeSize t path q u →
      follow m usizeSize path = some (.ok, q) := by
    intro path q u hplaced
    have hpath := hstatic.components hplaced.named
    obtain ⟨r, hr, hrp⟩ := h.lookup path hpath
    rw [getNodeOffset_pathOf hpath, (hrp q).2 ⟨u, hplaced⟩] at hr
    exact hr
  have hsup' := ((hstatic.named hplaced.named).kept
    (List.mem_of_getElem? he)).2.1
  have hchild := hfollow (hplaced.append (placed_cons_iff.2
    ⟨i, e, he, rfl, .here (childPos p s.attrs s.kept i) e.2 hsup'⟩))
  rw [follow_append (hfollow hplaced), follow] at hchild
  cases hc : MetaFileSystem.getChild m p e.1 with
  | none =>
      rw [hc] at hchild
      cases hchild
  | some n =>
      rw [hc] at hchild
      simp only at hchild
      split at hchild
      · cases hchild
      · cases hchild
        rfl

end Resolution

-- ==================================================== the two defects

section Defects

variable {p : Nat} {s : SourceTree} (hat : At m p s)
  (hsup : s.supported = true) (hstatic : Static s)
  (hint : s.kept.length ≤ 2 ^ 31)

include hstatic in
/-- Two entries have two places. -/
theorem childPos_inj {i j : Nat} (hi : i < s.kept.length)
    (hj : j < s.kept.length)
    (h : childPos p s.attrs s.kept i = childPos p s.attrs s.kept j) :
    i = j := by
  have hnode : nodeSize = 72 := rfl
  have he := List.getElem?_eq_getElem hi
  have he' := List.getElem?_eq_getElem hj
  have hsize := nodeSize_le_extent (hstatic.kept (List.getElem_mem hi)).2.1
  have hsize' := nodeSize_le_extent (hstatic.kept (List.getElem_mem hj)).2.1
  exact childPos_unique he he' (Nat.le_refl _) (by omega)
    (by rw [h]) (by omega)

include hat hsup hstatic hint in
/-- With attributes in front of the entries, some entry's node is not the
answer for its name: the first record searched is no entry at all. -/
theorem getChild_attrs (hkept : s.kept ≠ []) (hattrs : s.attrs ≠ []) :
    ¬ ∀ i e, s.kept[i]? = some e →
      getChild m p e.1 = some (childPos p s.attrs s.kept i) := by
  intro hall
  have hpos := List.length_pos_iff.2 hkept
  have hdir := isDir_of_kept (List.getElem_mem hpos)
  obtain ⟨⟨mode, hrecords⟩, -⟩ := hat.records hdir
  -- every entry's node is the offset of one of the records searched
  have hindex : ∀ i : Fin s.kept.length, ∃ j : Fin s.kept.length,
      childPos p s.attrs s.kept i = Entry.dataOffset m (p + nodeSize) j := by
    intro i
    have hchild := hall i _ (List.getElem?_eq_getElem i.2)
    rw [getChild_dir hat hsup hdir (by omega)] at hchild
    obtain ⟨j, hj, hr⟩ := findEntity_index hint hchild (childPos_pos i)
    exact ⟨⟨j, hj⟩, hr⟩
  choose f hf using hindex
  have hinj : Function.Injective f := by
    intro i j hij
    have := (hf i).trans ((congrArg _ (congrArg Fin.val hij)).trans
      (hf j).symm)
    exact Fin.ext (childPos_inj hstatic i.2 j.2 this)
  -- so the first one is the node of some entry
  obtain ⟨i, hi⟩ := Finite.injective_iff_surjective.1 hinj ⟨0, hpos⟩
  have hfirst : childPos p s.attrs s.kept i
      = Entry.dataOffset m (p + nodeSize) 0 := by
    rw [hf i, hi]
  have hvalue := hrecords.node.value 0 (List.length_pos_iff.2 hattrs)
  have hstart := @headEnd_le_childPos p s.attrs s.kept i
  have hhead : headEnd p s.attrs s.kept
      = direntsPos p s.attrs + namesLen (s.kept.map Prod.fst) := rfl
  omega

include hat hsup hstatic hint in
/-- With too many entries, the search for the last one overflows. -/
theorem getChild_overflow (hattrs : s.attrs = [])
    (hlen : 2 ^ 30 + 1 < s.kept.length) :
    ¬ ∀ i e, s.kept[i]? = some e →
      getChild m p e.1 = some (childPos p s.attrs s.kept i) := by
  intro hall
  obtain ⟨e, he⟩ : ∃ e, s.kept[s.kept.length - 1]? = some e :=
    ⟨_, List.getElem?_eq_getElem (by omega)⟩
  have hdir := isDir_of_kept (List.mem_of_getElem? he)
  obtain ⟨hnames, hasc⟩ := names_of_at hat hstatic hdir
  have hpos : direntsPos p [] = p + nodeSize := rfl
  rw [hattrs, hpos] at hnames
  have hname : (s.kept.map Prod.fst)[(s.kept.map Prod.fst).length - 1]?
      = some e.1 := by
    rw [List.length_map, List.getElem?_map, he]
    rfl
  have hfind := findEntity_overflow hnames hasc (by rwa [List.length_map])
    (by rwa [List.length_map]) hname
  have hchild := hall _ _ he
  rw [List.length_map] at hfind
  rw [getChild_dir hat hsup hdir (by omega), hfind] at hchild
  cases hchild

end Defects

/-- Only in a plain tree every path resolves. -/
theorem plain_of_resolves {t : SourceTree} (hat : At m usizeSize t)
    (hstatic : Static t)
    (hint : ∀ path s, Named t path s → s.kept.length ≤ 2 ^ 31)
    (h : Resolves m t) : Plain t := by
  intro path s hnamed
  obtain ⟨p, hplaced⟩ := hnamed.placed usizeSize
  have hat' := hat.placed hplaced
  have hsup := hplaced.within.1
  have hstatic' := hstatic.named hnamed
  have hlen := hint path s hnamed
  have hall : ∀ i e, s.kept[i]? = some e →
      getChild m p e.1 = some (childPos p s.attrs s.kept i) :=
    fun i e he => h.getChild hstatic hplaced he
  have hattrs : s.kept ≠ [] → s.attrs = [] := by
    intro hkept
    by_contra hattrs
    exact getChild_attrs hat' hsup hstatic' hlen hkept hattrs hall
  refine ⟨?_, hattrs⟩
  by_contra hmany
  have hkept : s.kept ≠ [] := by
    intro hnil
    rw [hnil] at hmany
    simp at hmany
  exact getChild_overflow hat' hsup hstatic' hlen (hattrs hkept)
    (by omega) hall

/-- What `scan_dfs` leaves when it is called by `build`. -/
theorem at_of_scanDfs {heap : Nat → Mem} {t : SourceTree}
    {b : MetaFSBuilder} {off : Nat}
    (hscan : MetaFSBuilder.scanDfs heap t (.start heap) = some (b, off)) :
    At b.data usizeSize t
      ∧ ∀ path s, Named t path s → s.kept.length ≤ 2 ^ 31 := by
  constructor
  · rcases MetaFSBuilder.scanDfs_spec heap t (.start heap)
      (show usizeSize ≤ chunkSizeBytes by decide)
      with ⟨b', hsome, -, hat⟩ | ⟨hnone, -⟩
    · rw [hscan, Option.some.injEq, Prod.mk.injEq] at hsome
      rw [hsome.1]
      exact hat
    · exact absurd (hscan.symm.trans hnone) (Option.some_ne_none _)
  · intro path s hnamed
    by_contra hmany
    have hnone := @MetaFSBuilder.scanDfs_crowded heap t
      ⟨path, s, hnamed, by omega⟩ (.start heap)
    exact absurd (hscan.symm.trans hnone) (Option.some_ne_none _)

/-- After `scan_dfs` of a static tree, path lookup agrees with the tree
and with listing if and only if every directory has at most
`2 ^ 30 + 1` entries, and no extended attributes unless it is empty. -/
theorem resolves_iff_plain (heap : Nat → Mem) (t : SourceTree)
    (hstatic : Static t) (hsup : t.supported = true) (b : MetaFSBuilder)
    (off : Nat)
    (hscan : MetaFSBuilder.scanDfs heap t (.start heap) = some (b, off)) :
    Resolves b.data t ↔ Plain t := by
  obtain ⟨hat, hint⟩ := at_of_scanDfs hscan
  exact ⟨plain_of_resolves hat hstatic hint,
    resolves_of_plain hat hsup hstatic⟩

/-- Metadata of no interest, with the mode. -/
def statOf (mode : UInt32) : Stat :=
  { mode := mode, uid := 0, gid := 0, size := 0, blocks := 0, mtimeSec := 0
    mtimeNsec := 0, ctimeSec := 0, ctimeNsec := 0 }

/-- A directory with the attributes and one empty file `f`. -/
def oneFile (xattrs : Xattrs) : SourceTree :=
  .node (statOf 0x41ED) xattrs []
    [([102], some 0x81A4, .node (statOf 0x81A4) [] [] [])]

/-- The example with one file is static. -/
theorem oneFile_static (xattrs : Xattrs) : Static (oneFile xattrs) := by
  refine .node _ _ _ _ (by decide) (by decide) (by decide) ?_
  intro e he
  rw [List.mem_singleton] at he
  rw [he]
  exact .node _ _ _ _ (by decide) (by decide) (by decide)
    fun e he => absurd he List.not_mem_nil

/-- It keeps its one file. -/
theorem oneFile_kept (xattrs : Xattrs) :
    (oneFile xattrs).kept = [([102], .node (statOf 0x81A4) [] [] [])] := by
  rfl

/-- A directory with one file. -/
theorem resolves_one_file :
    ∃ b, MetaFSBuilder.scanDfs (fun _ _ => 0) (oneFile [])
          (.start fun _ _ => 0) = some (b, usizeSize)
      ∧ Resolves b.data (oneFile []) := by
  obtain ⟨b, hscan⟩ := @MetaFSBuilder.scanDfs_small (fun _ _ => 0)
    (oneFile []) (by decide) (by decide)
  refine ⟨b, hscan, (resolves_iff_plain _ _ (oneFile_static []) (by decide) b
    _ hscan).2 fun path s hnamed => ?_⟩
  cases hnamed with
  | here _ _ =>
      rw [oneFile_kept]
      exact ⟨by decide, fun _ => rfl⟩
  | entry _ e path _ listed rest =>
      rw [oneFile_kept, List.mem_singleton] at listed
      subst listed
      cases rest with
      | here _ _ => exact ⟨by decide, fun _ => rfl⟩
      | entry _ e path _ listed rest => cases listed

/-- One attribute `a` of value `1` on the directory, and its file `f` is
not found, or not at the node `get_dir` lists it with. -/
theorem oneFile_attr_not_resolves :
    Static (oneFile [([97], [49])]) ∧ (oneFile [([97], [49])]).supported
      ∧ ∃ b, MetaFSBuilder.scanDfs (fun _ _ => 0) (oneFile [([97], [49])])
            (.start fun _ _ => 0) = some (b, usizeSize)
          ∧ ¬ Resolves b.data (oneFile [([97], [49])]) := by
  have hsup : (oneFile [([97], [49])]).supported = true := by decide
  have hstatic := oneFile_static [([97], [49])]
  obtain ⟨b, hscan⟩ := @MetaFSBuilder.scanDfs_small (fun _ _ => 0)
    (oneFile [([97], [49])]) hsup (by decide)
  refine ⟨hstatic, hsup, b, hscan, fun hresolves => ?_⟩
  obtain ⟨hat, hint⟩ := at_of_scanDfs hscan
  have hplain := plain_of_resolves hat hstatic hint hresolves [] _
    (.here _ hsup)
  rw [oneFile_kept] at hplain
  exact absurd (hplain.2 (by simp)) (by decide)

end MetaFileSystem

end Distfs

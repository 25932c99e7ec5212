/-
`scan_dfs` writes the records of the tree it is called on.

# Extending

A visit only adds: `Extends b b' n` says that `b'` is `n` bytes further
than `b`, within its buffer, and has the bytes below unchanged. It
composes, so the records of an entry stand when its directory is done.
The one exception are the offsets of the entries, which the loop of a
directory fills in behind each visit; they lie above where the visit of
the directory started.

# Failing

`none` has two causes, and `scanDfs_spec` names them: the buffer cannot
grow any further, or a directory has more entries than an `int` can
index. The second one always is fatal (`scanDfs_crowded`).
-/
import Distfs.Meta.Image
import Distfs.Meta.MetafsBuilder

namespace Distfs

open SourceTree

namespace MetaFSBuilder

/-- `b'` is `n` bytes further than `b`. -/
structure Extends (b b' : MetaFSBuilder) (n : Nat) : Prop where
  pos : b'.currentPos = b.currentPos + n
  fits : b'.currentPos ≤ b'.dataSize.1
  below : ∀ a, a < b.currentPos → b'.data a = b.data a

variable {heap : Nat → Mem} {b : MetaFSBuilder}

-- ====================================================== the buffer

/-- The loop ends with room for `need` bytes, or with more asked for than
there is. -/
theorem grow_spec (need : Nat) :
    ∀ (fuel : Nat) (b : MetaFSBuilder), need ≤ fuel + b.dataSize.1 →
      (∃ b', grow heap need fuel b = some b'
          ∧ b'.currentPos = b.currentPos ∧ need ≤ b'.dataSize.1
          ∧ ∀ a, a < b.dataSize.1 → b'.data a = b.data a)
        ∨ (grow heap need fuel b = none ∧ allocLimit < 2 * need) := by
  intro fuel
  induction fuel with
  | zero => exact fun b h => .inl ⟨b, rfl, rfl, by omega, fun _ _ => rfl⟩
  | succ fuel ih =>
      intro b h
      unfold grow
      split
      · next hsmall =>
        split
        · next hdouble =>
          have hpos := b.dataSize.2.1
          rcases ih { b with
            data := fun i =>
              if i < b.dataSize.1 then b.data i else heap b.allocs i
            dataSize := ⟨2 * b.dataSize.1, by omega, hdouble⟩
            allocs := b.allocs + 1 } (by simp only; omega)
            with ⟨b', hgrow, hpos', hneed, hdata⟩ | hnone
          · refine .inl ⟨b', hgrow, hpos', hneed, fun a ha => ?_⟩
            rw [hdata a (by simp only; omega)]
            exact if_pos ha
          · exact .inr hnone
        · exact .inr ⟨rfl, by omega⟩
      · exact .inl ⟨b, rfl, rfl, by omega, fun _ _ => rfl⟩

/-- `reserve_buffer` makes room behind the position. -/
theorem reserveBuffer_spec (length : Nat) :
    (∃ b', b.reserveBuffer heap length = some b'
        ∧ b'.currentPos = b.currentPos
        ∧ length + b.currentPos ≤ b'.dataSize.1
        ∧ ∀ a, a < b.dataSize.1 → b'.data a = b.data a)
      ∨ (b.reserveBuffer heap length = none
        ∧ allocLimit < 2 * (b.currentPos + length)) := by
  rcases @grow_spec heap (length + b.currentPos) (length + b.currentPos) b
    (by omega) with hsome | ⟨hnone, hlimit⟩
  · exact .inl hsome
  · exact .inr ⟨hnone, by omega⟩

-- ===================================================== the records

/-- `set_stat` leaves what is behind its fields. -/
theorem setStat_outside {st : Stat} {m : Mem} {p a : Nat}
    (h : a < p ∨ p + 48 ≤ a) : setStat st m p a = m a := by
  unfold setStat
  repeat rw [Mem.writeLe_outside _ (by omega)]

/-- The mode comes back. -/
theorem mode_setStat (st : Stat) (m : Mem) (p : Nat) :
    Node.mode (setStat st m p) p = st.mode.toNat := by
  unfold setStat Node.mode
  repeat rw [Mem.readLe_writeLe_disjoint _ (by omega)]
  rw [Mem.readLe_writeLe_self]
  exact Nat.mod_eq_of_lt st.mode.toNat_lt

/-- The bytes of names and values. -/
def xattrsBody (xattrs : Xattrs) : Nat :=
  (xattrs.map fun x => x.1.length + 1 + usizeSize + (x.2.length + 1)).sum

/-- Entries first, then names and values. -/
theorem xattrsLen_eq (xattrs : Xattrs) :
    xattrsLen xattrs = 16 * xattrs.length + xattrsBody xattrs := by
  induction xattrs with
  | nil => rfl
  | cons x xattrs ih =>
      rw [xattrsLen, xattrsBody] at ih ⊢
      simp only [List.map_cons, List.sum_cons, List.length_cons, entrySize]
        at ih ⊢
      omega

/-- The loop of `add_xattrs` writes its entries, and names and values
behind them, to where the entries point. -/
theorem addXattrsFrom_spec (entries : Nat) (xattrs : Xattrs) :
    ∀ (i : Nat) (m : Mem) (pos : Nat),
      entries + 16 * (i + xattrs.length) ≤ pos →
      (addXattrsFrom entries i xattrs m pos).2 = pos + xattrsBody xattrs
        ∧ (∀ a, a < entries + 16 * i
            ∨ entries + 16 * (i + xattrs.length) ≤ a →
          a < pos ∨ pos + xattrsBody xattrs ≤ a →
          (addXattrsFrom entries i xattrs m pos).1 a = m a)
        ∧ ∀ k, k < xattrs.length →
          pos + xattrsBody xattrs < 2 ^ 64 →
          Entry.dataOffset (addXattrsFrom entries i xattrs m pos).1 entries
            (i + k) < pos + xattrsBody xattrs := by
  induction xattrs with
  | nil =>
      intro i m pos _
      exact ⟨rfl, fun _ _ _ => rfl, fun k hk => by cases hk⟩
  | cons x xattrs ih =>
      obtain ⟨name, value⟩ := x
      intro i m pos hpos
      have hbody : xattrsBody ((name, value) :: xattrs)
          = name.length + 1 + 8 + (value.length + 1)
            + xattrsBody xattrs := rfl
      have hlen : ((name, value) :: xattrs).length = xattrs.length + 1 := rfl
      rw [addXattrsFrom, usizeSize]
      generalize hm : Mem.write (Mem.writeLe (Entry.setDataOffset _ entries i
        _) _ 8 value.length) _ _ = m₁
      obtain ⟨hend, hout, hval⟩ := ih (i + 1) m₁
        (pos + (name.length + 1) + 8 + (value.length + 1)) (by omega)
      refine ⟨by omega, ?_, ?_⟩
      · intro a hentries ha
        rw [hout a (by omega) (by omega), ← hm]
        rw [Mem.write_outside _ (by rw [Mem.length_strncpyBytes]; omega),
          Mem.writeLe_outside _ (by omega),
          Entry.setDataOffset_outside (by omega),
          Mem.write_outside _ (by rw [Mem.length_strncpyBytes]; omega),
          Entry.setNameOffset_outside (by omega)]
      · intro k hk hlt
        cases k with
        | zero =>
            -- what comes behind this record leaves it alone
            have hkeep : Entry.dataOffset (addXattrsFrom entries (i + 1)
                xattrs m₁ (pos + (name.length + 1) + 8
                  + (value.length + 1))).1 entries i = pos + (name.length + 1)
                := by
              rw [Entry.dataOffset_congr fun a halo hahi =>
                hout a (by omega) (by omega), ← hm]
              rw [Entry.dataOffset_congr fun a halo hahi =>
                Mem.write_outside _
                  (by rw [Mem.length_strncpyBytes]; omega)]
              rw [Entry.dataOffset_congr fun a halo hahi =>
                Mem.writeLe_outside _ (by omega)]
              rw [Entry.dataOffset_setDataOffset]
              exact Nat.mod_eq_of_lt (by omega)
            show Entry.dataOffset _ entries i < _
            omega
        | succ k =>
            have := hval k (by omega) (by omega)
            rw [show i + (k + 1) = i + 1 + k by omega]
            omega

/-- `add_xattrs` stays in its space, and its entries point into it. -/
theorem addXattrs_spec (xattrs : Xattrs) (m : Mem) (pos : Nat) :
    (addXattrs xattrs m pos).2 = pos + xattrsLen xattrs
      ∧ (∀ a, a < pos ∨ pos + xattrsLen xattrs ≤ a →
        (addXattrs xattrs m pos).1 a = m a)
      ∧ ∀ k, k < xattrs.length → pos + xattrsLen xattrs < 2 ^ 64 →
        Entry.dataOffset (addXattrs xattrs m pos).1 pos k
          < pos + xattrsLen xattrs := by
  have hlen := xattrsLen_eq xattrs
  obtain ⟨hend, hout, hval⟩ := addXattrsFrom_spec pos xattrs 0 m
    (pos + 16 * xattrs.length) (by omega)
  refine ⟨?_, ?_, ?_⟩
  · rw [addXattrs, entrySize, hend]
    omega
  · intro a ha
    exact hout a (by omega) (by omega)
  · intro k hk hlt
    have := hval k hk (by omega)
    rw [Nat.zero_add] at this
    show Entry.dataOffset (addXattrsFrom pos 0 xattrs m
      (pos + 16 * xattrs.length)).1 pos k < _
    omega

/-- Sorting keeps the space. -/
theorem xattrsLen_readXattrs (xattrs : Xattrs) :
    xattrsLen (readXattrs xattrs) = xattrsLen xattrs :=
  ((List.perm_insertionSort _ xattrs).map _).sum_nat

/-- Sorting keeps the number. -/
theorem length_readXattrs (xattrs : Xattrs) :
    (readXattrs xattrs).length = xattrs.length :=
  List.length_insertionSort _ xattrs

/-- The bytes of the names. -/
def namesBody (names : List Bytes) : Nat :=
  (names.map fun s => s.length + 1).sum

/-- Entries first, then the names. -/
theorem namesLen_eq (names : List Bytes) :
    namesLen names = 16 * names.length + namesBody names := by
  induction names with
  | nil => rfl
  | cons s names ih =>
      rw [namesLen, namesBody] at ih ⊢
      simp only [List.map_cons, List.sum_cons, List.length_cons, entrySize]
        at ih ⊢
      omega

/-- The loop of `add_dir` writes the names behind the entries, to where
these point. -/
theorem addNamesFrom_spec (dirent : Nat) (names : List Bytes) :
    ∀ (i : Nat) (m : Mem) (pos : Nat),
      dirent + 16 * (i + names.length) ≤ pos →
      (addNamesFrom dirent i names m pos).2 = pos + namesBody names
        ∧ (∀ a, a < dirent + 16 * i
            ∨ dirent + 16 * (i + names.length) ≤ a →
          a < pos ∨ pos + namesBody names ≤ a →
          (addNamesFrom dirent i names m pos).1 a = m a)
        ∧ ∀ k s, names[k]? = some s → pos + namesBody names < 2 ^ 64 →
          ∃ q, Entry.nameOffset (addNamesFrom dirent i names m pos).1 dirent
              (i + k) = q
            ∧ pos ≤ q ∧ q + (s.length + 1) ≤ pos + namesBody names
            ∧ (0 ∉ s → (addNamesFrom dirent i names m pos).1.CStr q s) := by
  induction names with
  | nil =>
      intro i m pos _
      exact ⟨rfl, fun _ _ _ => rfl, fun k s hk => by cases hk⟩
  | cons name names ih =>
      intro i m pos hpos
      have hbody : namesBody (name :: names)
          = name.length + 1 + namesBody names := rfl
      have hlen : (name :: names).length = names.length + 1 := rfl
      rw [addNamesFrom]
      generalize hm : Entry.setNameOffset (m.write pos _) dirent i pos = m₁
      obtain ⟨hend, hout, hname⟩ :=
        ih (i + 1) m₁ (pos + (name.length + 1)) (by omega)
      refine ⟨by omega, ?_, ?_⟩
      · intro a hentries ha
        rw [hout a (by omega) (by omega), ← hm,
          Entry.setNameOffset_outside (by omega),
          Mem.write_outside _ (by rw [Mem.length_strncpyBytes]; omega)]
      · intro k s hs hlt
        cases k with
        | zero =>
            cases hs
            refine ⟨pos, ?_, Nat.le_refl _, by omega, fun h0 => ?_⟩
            · show Entry.nameOffset _ dirent i = pos
              rw [Entry.nameOffset_congr fun a halo hahi =>
                hout a (by omega) (by omega), ← hm,
                Entry.nameOffset_setNameOffset]
              exact Nat.mod_eq_of_lt (by omega)
            · refine Mem.CStr.congr (@Mem.cstr_write m pos name h0)
                fun a halo hahi => ?_
              rw [hout a (by omega) (by omega), ← hm,
                Entry.setNameOffset_outside (by omega)]
        | succ k =>
            obtain ⟨q, hq, hlo, hhi, hstr⟩ := hname k s hs (by omega)
            rw [show i + (k + 1) = i + 1 + k by omega]
            exact ⟨q, hq, by omega, by omega, hstr⟩

-- ======================================================== the nodes

/-- `add_file` adds a node. -/
theorem addFile_spec (st : Stat) (xattrs : Xattrs)
    (h : b.currentPos ≤ b.dataSize.1) :
    (∃ b', b.addFile heap st xattrs = some (b', b.currentPos)
        ∧ Extends b b' (nodeSize + xattrsLen xattrs)
        ∧ Node.mode b'.data b.currentPos = st.mode.toNat)
      ∨ (b.addFile heap st xattrs = none
        ∧ allocLimit
          < 2 * (b.currentPos + (nodeSize + xattrsLen xattrs))) := by
  rcases @reserveBuffer_spec heap b (nodeSize + xattrsLen xattrs)
    with ⟨b₁, hreserve, hpos, hfits, hdata⟩ | ⟨hnone, hlimit⟩
  · have hnode : nodeSize = 72 := rfl
    left
    unfold addFile
    simp only [hreserve, hpos]
    generalize hm : Node.setXattrsCount (setStat st b₁.data b.currentPos)
      b.currentPos _ = m
    obtain ⟨hend, hout, -⟩ :=
      addXattrs_spec xattrs m (b.currentPos + nodeSize)
    refine ⟨_, rfl, ⟨by simp only; omega, by simp only; omega, ?_⟩, ?_⟩
    · intro a ha
      simp only
      rw [hout a (by omega), ← hm, Node.setXattrsCount_outside (by omega),
        setStat_outside (by omega), hdata a (by omega)]
    · refine (Mem.readLe_congr fun a halo hahi => ?_).trans
        (mode_setStat st b₁.data b.currentPos)
      simp only
      rw [hout a (by omega), ← hm, Node.setXattrsCount_outside (by omega)]
  · right
    unfold addFile
    simp only [hnone]
    exact ⟨trivial, hlimit⟩

/-- `add_link` adds a node and the target. -/
theorem addLink_spec (st : Stat) (target : Bytes) (xattrs : Xattrs)
    (h : b.currentPos ≤ b.dataSize.1) (h0 : 0 ∉ target) :
    (∃ b', b.addLink heap st target xattrs = some (b', b.currentPos)
        ∧ Extends b b' (nodeSize + xattrsLen xattrs + (target.length + 1))
        ∧ Node.mode b'.data b.currentPos = st.mode.toNat
        ∧ Node.dataOffset b'.data b.currentPos
          = direntsPos b.currentPos xattrs
        ∧ b'.data.CStr (direntsPos b.currentPos xattrs) target)
      ∨ (b.addLink heap st target xattrs = none
        ∧ allocLimit < 2 * (b.currentPos
          + (nodeSize + xattrsLen xattrs + (target.length + 1)))) := by
  rcases @reserveBuffer_spec heap b
    (nodeSize + (target.length + 1) + xattrsLen xattrs)
    with ⟨b₁, hreserve, hpos, hfits, hdata⟩ | ⟨hnone, hlimit⟩
  · have hnode : nodeSize = 72 := rfl
    have hsize := b₁.dataSize.2.2
    have hlimit : allocLimit = 2 ^ 63 - 1 := rfl
    have hdirents : direntsPos b.currentPos xattrs
        = b.currentPos + nodeSize + xattrsLen xattrs := rfl
    left
    unfold addLink
    simp only [hreserve, hpos]
    generalize hm : Node.setXattrsCount (setStat st b₁.data b.currentPos)
      b.currentPos _ = m
    obtain ⟨hend, hout, -⟩ :=
      addXattrs_spec xattrs m (b.currentPos + nodeSize)
    rw [hend, ← hdirents]
    refine ⟨_, rfl, ⟨by simp only; omega, by simp only; omega, ?_⟩, ?_, ?_,
      ?_⟩
    · intro a ha
      simp only
      rw [Node.setDataOffset_outside (by omega),
        Mem.write_outside _ (by omega), hout a (by omega), ← hm,
        Node.setXattrsCount_outside (by omega), setStat_outside (by omega),
        hdata a (by omega)]
    · refine (Mem.readLe_congr fun a halo hahi => ?_).trans
        (mode_setStat st b₁.data b.currentPos)
      simp only
      rw [Node.setDataOffset_outside (by omega),
        Mem.write_outside _ (by omega), hout a (by omega), ← hm,
        Node.setXattrsCount_outside (by omega)]
    · simp only
      rw [Node.dataOffset_setDataOffset]
      exact Nat.mod_eq_of_lt (by omega)
    · refine Mem.CStr.congr (@Mem.cstr_write
        (addXattrs xattrs m (b.currentPos + nodeSize)).1 _ _ h0)
        fun a halo hahi => ?_
      simp only
      rw [Node.setDataOffset_outside (by omega)]
  · right
    unfold addLink
    simp only [hnone]
    exact ⟨trivial, by omega⟩

/-- `add_dir` adds a node, its entries and their names. -/
theorem addDir_spec (st : Stat) (names : List Bytes) (xattrs : Xattrs)
    (h : b.currentPos ≤ b.dataSize.1) :
    (∃ b', b.addDir heap st names xattrs
          = some (b', b.currentPos, direntsPos b.currentPos xattrs)
        ∧ Extends b b' (nodeSize + xattrsLen xattrs + namesLen names)
        ∧ DirNode b'.data b.currentPos st.mode.toNat xattrs names)
      ∨ (b.addDir heap st names xattrs = none
        ∧ allocLimit < 2 * (b.currentPos
          + (nodeSize + xattrsLen xattrs + namesLen names))) := by
  rcases @reserveBuffer_spec heap b
    (nodeSize + namesLen names + xattrsLen xattrs)
    with ⟨b₁, hreserve, hpos, hfits, hdata⟩ | ⟨hnone, hlimit⟩
  · have hnode : nodeSize = 72 := rfl
    have hsize := b₁.dataSize.2.2
    have hlimit : allocLimit = 2 ^ 63 - 1 := rfl
    have hnames := namesLen_eq names
    have hxattrs := xattrsLen_eq xattrs
    have hdirents : direntsPos b.currentPos xattrs
        = b.currentPos + nodeSize + xattrsLen xattrs := rfl
    left
    unfold addDir
    simp only [hreserve, hpos]
    generalize hm : Node.setXattrsCount (Node.setLength
      (setStat st b₁.data b.currentPos) b.currentPos _) b.currentPos _ = m
    obtain ⟨hend, hout, hval⟩ :=
      addXattrs_spec xattrs m (b.currentPos + nodeSize)
    rw [hend, ← hdirents]
    generalize hm' : Node.setDataOffset _ b.currentPos
      (direntsPos b.currentPos xattrs) = m'
    obtain ⟨hend', hout', hname⟩ := addNamesFrom_spec
      (direntsPos b.currentPos xattrs) names 0 m'
      (direntsPos b.currentPos xattrs + 16 * names.length) (by omega)
    rw [entrySize]
    generalize addNamesFrom _ 0 names m' _ = added at hend' hout' hname ⊢
    -- the node keeps all but its offset
    have hkeep : ∀ a, a < b.currentPos + 64 → added.1 a = m a := by
      intro a ha
      rw [hout' a (by omega) (by omega), ← hm',
        Node.setDataOffset_outside (by omega), hout a (by omega)]
    rw [hend']
    refine ⟨_, rfl, ⟨by simp only; omega, by simp only; omega, ?_⟩,
      ⟨?_, ?_, ?_, ?_, ?_⟩⟩
    · intro a ha
      simp only
      rw [hkeep a (by omega), ← hm, Node.setXattrsCount_outside (by omega),
        Node.setLength_outside (by omega), setStat_outside (by omega),
        hdata a (by omega)]
    · refine (Mem.readLe_congr fun a halo hahi => ?_).trans
        (mode_setStat st b₁.data b.currentPos)
      simp only
      rw [hkeep a (by omega), ← hm, Node.setXattrsCount_outside (by omega),
        Node.setLength_outside (by omega)]
    · refine (Mem.readLe_congr fun a halo hahi => ?_).trans
        ((@Node.length_setLength (setStat st b₁.data b.currentPos)
          b.currentPos names.length).trans (Nat.mod_eq_of_lt (by omega)))
      simp only
      rw [hkeep a (by omega), ← hm, Node.setXattrsCount_outside (by omega)]
    · refine (Mem.readLe_congr fun a halo hahi => ?_).trans
        ((congrArg (fun m => Node.dataOffset m b.currentPos) hm'.symm).trans
          (Node.dataOffset_setDataOffset.trans (Nat.mod_eq_of_lt (by omega))))
      exact hout' a (by omega) (by omega)
    · intro i s hs
      obtain ⟨q, hq, hlo, hhi, hstr⟩ := hname i s hs (by omega)
      rw [Nat.zero_add] at hq
      simp only
      rw [hq]
      exact ⟨hlo, by omega, hstr⟩
    · intro i hi
      have hv := hval i hi (by omega)
      rw [Entry.dataOffset_congr fun a halo hahi => ?_] at hv
      · exact hv
      · simp only
        rw [hout' a (by omega) (by omega), ← hm',
          Node.setDataOffset_outside (by omega)]
  · right
    unfold addDir
    simp only [hnone]
    exact ⟨trivial, by omega⟩

-- ======================================================== the visit

/-- A directory below has more entries than an `int` can index. -/
def Crowded (t : SourceTree) : Prop :=
  ∃ path s, Named t path s ∧ 2 ^ 31 < s.kept.length

/-- What a visit of the tree does: it writes the records, unless the
buffer cannot grow or a directory is too large. -/
def Scans (heap : Nat → Mem) (t : SourceTree) : Prop :=
  ∀ b : MetaFSBuilder, b.currentPos ≤ b.dataSize.1 →
    (∃ b', scanDfs heap t b
          = some (b', if t.supported then b.currentPos else 0)
        ∧ Extends b b' t.extent ∧ At b'.data b.currentPos t)
      ∨ (scanDfs heap t b = none
        ∧ (allocLimit < 2 * (b.currentPos + t.extent) ∨ Crowded t))

/-- The bytes the visits of the entries write. -/
def extentSum (es : List (Bytes × SourceTree)) : Nat :=
  (es.map fun e => e.2.extent).sum

/-- An entry with the function that visits it. -/
def visit (heap : Nat → Mem) (e : Bytes × SourceTree) : Bytes × Visit :=
  (e.1, scanDfs heap e.2)

/-- The visits of the kept entries. -/
theorem scanners_eq (heap : Nat → Mem) (entries : List Listed) :
    scanners heap entries
      = ((entries.filter keeps).map fun e => (e.1, e.2.2)).map
          (visit heap) := by
  induction entries with
  | nil => rfl
  | cons e es ih =>
      rw [scanners, List.filter_cons]
      split
      · rw [ih]
        rfl
      · exact ih

/-- Sorting the visits is visiting the sorted entries. -/
theorem sorted_scanners (heap : Nat → Mem) (entries : List Listed) :
    (scanners heap entries).insertionSort (fun a b => a.1 ≤ b.1)
      = (sortedEntries entries).map (visit heap) := by
  rw [scanners_eq, sortedEntries]
  exact (List.map_insertionSort (fun a b : Bytes × SourceTree => a.1 ≤ b.1)
    (fun a b : Bytes × Visit => a.1 ≤ b.1) (visit heap) _
    fun a _ b _ => Iff.rfl).symm

/-- The last loop of `scan_dfs`: every entry is visited behind the one
before, and its offset entered. -/
theorem scanEntries_spec (dirents : Nat) (es : List (Bytes × SourceTree)) :
    (∀ e ∈ es, Scans heap e.2) →
    ∀ (i : Nat) (b : MetaFSBuilder),
      dirents + 16 * (i + es.length) ≤ b.currentPos →
      b.currentPos ≤ b.dataSize.1 →
      (∃ b', scanEntries dirents i (es.map (visit heap)) b = some b'
          ∧ b'.currentPos = b.currentPos + extentSum es
          ∧ b'.currentPos ≤ b'.dataSize.1
          ∧ (∀ a, a < b.currentPos →
            (∀ k, k < es.length → a < dirents + 16 * (i + k) + 8
              ∨ dirents + 16 * (i + k) + 16 ≤ a) → b'.data a = b.data a)
          ∧ ∀ k e, es[k]? = some e →
            Entry.dataOffset b'.data dirents (i + k)
                = (if e.2.supported
                  then b.currentPos + extentSum (es.take k) else 0)
              ∧ At b'.data (b.currentPos + extentSum (es.take k)) e.2)
        ∨ (scanEntries dirents i (es.map (visit heap)) b = none
          ∧ (allocLimit < 2 * (b.currentPos + extentSum es)
            ∨ (∃ e ∈ es, Crowded e.2) ∨ 2 ^ 31 < i + es.length)) := by
  induction es with
  | nil =>
      intro _ i b _ hfits
      refine .inl ⟨b, rfl, rfl, hfits, fun _ _ _ => rfl, fun k e hk => ?_⟩
      cases hk
  | cons e es ih =>
      intro hscans i b hdirents hfits
      have hsum : extentSum (e :: es) = e.2.extent + extentSum es := rfl
      have hlen : (e :: es).length = es.length + 1 := rfl
      have hhead : (visit heap e).2 b = scanDfs heap e.2 b := rfl
      rw [List.map_cons, scanEntries, hhead]
      rcases hscans e List.mem_cons_self b hfits
        with ⟨b₁, hvisit, hext, hat⟩ | ⟨hnone, hcause⟩
      · rw [hvisit]
        simp only
        by_cases hindex : i < 2 ^ 31
        · obtain ⟨b₂, hb₂⟩ : ∃ b₂ : MetaFSBuilder, { b₁ with
              data := Entry.setDataOffset b₁.data dirents i
                (if e.2.supported then b.currentPos else 0) } = b₂ :=
            ⟨_, rfl⟩
          rw [show b₁.setDirentNodeOffset dirents i _ = some b₂ from
            (if_pos hindex).trans (congrArg some hb₂)]
          simp only
          have hpos₂ : b₂.currentPos = b.currentPos + e.2.extent := by
            rw [← hb₂]
            exact hext.pos
          have hfits₂ : b₂.currentPos ≤ b₂.dataSize.1 := by
            rw [← hb₂]
            exact hext.fits
          have hout₂ : ∀ a, a < dirents + 16 * i + 8
              ∨ dirents + 16 * i + 16 ≤ a → b₂.data a = b₁.data a := by
            intro a ha
            rw [← hb₂]
            exact Entry.setDataOffset_outside ha
          rcases ih (fun e he => hscans e (List.mem_cons_of_mem _ he))
            (i + 1) b₂ (by omega) hfits₂
            with ⟨b', hrest, hpos', hfits', hout', hchild⟩ | ⟨hnone, hcause⟩
          · refine .inl ⟨b', hrest, by omega, hfits', ?_, ?_⟩
            · intro a ha hfield
              have h0 := hfield 0 (by omega)
              rw [hout' a (by omega) fun k hk => by
                  have := hfield (k + 1) (by omega)
                  omega,
                hout₂ a (by omega), hext.below a ha]
            · intro k e' he'
              cases k with
              | zero =>
                  cases he'
                  -- later visits and offsets are elsewhere
                  have hkeep : ∀ a, a < b₂.currentPos →
                      a < dirents + 16 * (i + 1)
                        ∨ dirents + 16 * (i + 1 + es.length) ≤ a →
                      b'.data a = b₂.data a := fun a ha hfield =>
                    hout' a ha fun k hk => by omega
                  refine ⟨?_, hat.congr fun a halo hahi _ => ?_⟩
                  · show Entry.dataOffset b'.data dirents i = _
                    rw [Entry.dataOffset_congr fun a halo hahi =>
                      hkeep a (by omega) (by omega), ← hb₂]
                    simp only
                    rw [Entry.dataOffset_setDataOffset]
                    have hlimit := b₂.dataSize.2.2
                    have : allocLimit = 2 ^ 63 - 1 := rfl
                    refine Nat.mod_eq_of_lt ?_
                    split
                    · omega
                    · omega
                  · have halo' : b.currentPos ≤ a := halo
                    have hahi' : a < b.currentPos + e.2.extent := hahi
                    rw [hkeep a (by omega) (by omega), hout₂ a (by omega)]
              | succ k =>
                  have hchild' := hchild k e' he'
                  rw [show i + (k + 1) = i + 1 + k by omega,
                    show b.currentPos + extentSum ((e :: es).take (k + 1))
                        = b₂.currentPos + extentSum (es.take k) by
                      rw [hpos₂, Nat.add_assoc]
                      rfl]
                  exact hchild'
          · refine .inr ⟨hnone, ?_⟩
            rcases hcause with hlimit | ⟨e', he', hcrowded⟩ | hindex
            · exact .inl (by omega)
            · exact .inr (.inl ⟨e', List.mem_cons_of_mem _ he', hcrowded⟩)
            · exact .inr (.inr (by omega))
        · rw [show b₁.setDirentNodeOffset dirents i _ = none from
            if_neg hindex]
          exact .inr ⟨rfl, .inr (.inr (by omega))⟩
      · rw [hnone]
        refine .inr ⟨rfl, ?_⟩
        rcases hcause with hlimit | hcrowded
        · exact .inl (by omega)
        · exact .inr (.inl ⟨e, List.mem_cons_self, hcrowded⟩)

/-- Where there is nothing to scan, nothing is written. -/
theorem scanDfs_unsupported {t : SourceTree} (h : t.supported = false)
    (b : MetaFSBuilder) : scanDfs heap t b = some (b, 0) := by
  cases t with
  | gone => rfl
  | node st xattrs target entries =>
      have hsup : ¬ isSupported st.mode.toNat = true := by
        simpa [supported] using h
      rw [scanDfs, if_pos hsup]

/-- `scan_dfs` writes the records of the tree. -/
theorem scanDfs_spec (heap : Nat → Mem) : ∀ t, Scans heap t := by
  apply SourceTree.induct
  · intro b hfits
    exact .inl ⟨b, rfl, ⟨rfl, hfits, fun _ _ => rfl⟩, .skip _ _ rfl⟩
  · intro st xattrs target entries ih b hfits
    have hnode : nodeSize = 72 := rfl
    have hlenx := xattrsLen_readXattrs xattrs
    by_cases hsupported : isSupported st.mode.toNat = true
    · rw [scanDfs, if_neg (not_not.2 hsupported)]
      have hsup : (SourceTree.node st xattrs target entries).supported
        = true := hsupported
      simp only [isSupported, Bool.or_eq_true] at hsupported
      rw [if_pos hsup]
      rcases hsupported with (hlnk | hreg) | hdir
      · -- a link
        rw [if_pos hlnk, extent_lnk hlnk]
        have h0 : (0 : UInt8) ∉ linkName target := fun h => by
          have := List.mem_takeWhile_imp h
          simp at this
        rcases @addLink_spec heap b st (linkName target) (readXattrs xattrs)
          hfits h0 with ⟨b', hadd, hext, hmode, hoffset, hstr⟩ | ⟨hnone, hl⟩
        · rw [hlenx] at hext
          rw [direntsPos, hlenx] at hoffset hstr
          exact .inl ⟨b', hadd, hext,
            .link _ st xattrs target entries hlnk hmode hoffset hstr⟩
        · rw [hlenx] at hl
          exact .inr ⟨hnone, .inl hl⟩
      · -- a regular file
        rw [(not_lnk_of_reg hreg).1, if_neg (by simp), if_pos hreg,
          extent_reg hreg]
        rcases @addFile_spec heap b st (readXattrs xattrs) hfits
          with ⟨b', hadd, hext, hmode⟩ | ⟨hnone, hl⟩
        · rw [hlenx] at hext
          exact .inl ⟨b', hadd, hext,
            .file _ st xattrs target entries hreg hmode⟩
        · rw [hlenx] at hl
          exact .inr ⟨hnone, .inl hl⟩
      · -- a directory
        obtain ⟨hlnk, hreg⟩ := not_lnk_reg_of_dir hdir
        rw [hlnk, hreg, if_neg (by simp), if_neg (by simp), sorted_scanners]
        have hnames : ((sortedEntries entries).map (visit heap)).map Prod.fst
            = (sortedEntries entries).map Prod.fst := by
          rw [List.map_map]
          rfl
        simp only [hnames]
        have hextent := @extent_dir st xattrs target entries hdir b.currentPos
        have hhead : headEnd b.currentPos xattrs (sortedEntries entries)
            = b.currentPos + (nodeSize + xattrsLen xattrs
              + namesLen ((sortedEntries entries).map Prod.fst)) := by
          rw [headEnd]
          omega
        have hkept : (SourceTree.node st xattrs target entries).kept
            = sortedEntries entries := if_pos hdir
        rcases @addDir_spec heap b st ((sortedEntries entries).map Prod.fst)
          (readXattrs xattrs) hfits with ⟨b₁, hadd, hext, hrec⟩ | ⟨hnone, hl⟩
        · have hdirents : direntsPos b.currentPos (readXattrs xattrs)
              = direntsPos b.currentPos xattrs := by
            rw [direntsPos, hlenx]
            rfl
          have hpos := hext.pos
          have hdef : direntsPos b.currentPos xattrs
              = b.currentPos + nodeSize + xattrsLen xattrs := rfl
          have hlen := namesLen_eq ((sortedEntries entries).map Prod.fst)
          rw [List.length_map] at hlen
          rw [hlenx, ← hhead] at hpos
          rw [hadd, hdirents]
          simp only
          have hscans : ∀ e ∈ sortedEntries entries, Scans heap e.2 := by
            intro e he
            obtain ⟨x, hx, -, hxe⟩ := mem_sortedEntries.1 he
            rw [← hxe]
            exact ih x hx
          rcases scanEntries_spec (direntsPos b.currentPos xattrs)
            (sortedEntries entries) hscans 0 b₁ (by omega) hext.fits
            with ⟨b', hscan, hpos', hfits', hout, hchild⟩ | ⟨hnone, hcause⟩
          · rw [hscan]
            refine .inl ⟨b', rfl, ⟨?_, hfits', fun a ha => ?_⟩, ?_⟩
            · rw [hpos', hpos, hextent]
              rfl
            · rw [hout a (by omega) fun k hk => by omega]
              exact hext.below a ha
            · refine .dir _ st xattrs target entries hdir ⟨?_, ?_⟩ ?_
              · have hrec' : DirNode b₁.data b.currentPos st.mode.toNat xattrs
                    ((sortedEntries entries).map Prod.fst) := by
                  refine ⟨hrec.mode, hrec.length, ?_, ?_, ?_⟩
                  · rw [hrec.dataOffset, hdirents]
                  · rw [← hdirents]
                    exact hrec.name
                  · rw [← hdirents, ← length_readXattrs xattrs]
                    exact hrec.value
                refine hrec'.congr fun a halo hahi hfield => ?_
                rw [List.length_map] at hfield
                refine (hout a (by omega) fun k hk => ?_).symm
                rw [Nat.zero_add]
                exact hfield k hk
              · intro i e he
                have := (hchild i e he).1
                rw [Nat.zero_add, hpos] at this
                exact this
              · intro i e he
                have := (hchild i e he).2
                rw [hpos] at this
                exact this
          · rw [hnone]
            refine .inr ⟨rfl, ?_⟩
            rcases hcause with hl | ⟨e, he, path, s, hnamed, hs⟩ | hindex
            · refine .inl ?_
              rw [hextent, ← hpos]
              exact hl
            · exact .inr ⟨e.1 :: path, s,
                .entry _ e path s (hkept ▸ he) hnamed, hs⟩
            · rw [Nat.zero_add] at hindex
              exact .inr ⟨[], _, .here _ hsup, hkept ▸ hindex⟩
        · rw [hnone]
          refine .inr ⟨rfl, .inl ?_⟩
          rw [hlenx, ← hhead] at hl
          rw [hextent]
          omega
    · have hsup : (SourceTree.node st xattrs target entries).supported
          = false := by
        simpa [supported] using hsupported
      rw [scanDfs_unsupported hsup, extent_unsupported hsup, hsup]
      exact .inl ⟨b, rfl, ⟨rfl, hfits, fun _ _ => rfl⟩, .skip _ _ hsup⟩

-- ================================================= too many entries

/-- The loop does not get past the last `int`. -/
theorem scanEntries_index (dirents : Nat) (es : List (Bytes × Visit)) :
    ∀ (i : Nat) (b b' : MetaFSBuilder),
      scanEntries dirents i es b = some b' → i ≤ 2 ^ 31 →
      i + es.length ≤ 2 ^ 31 := by
  induction es with
  | nil => exact fun i b b' _ hi => hi
  | cons e es ih =>
      intro i b b' h hi
      rw [scanEntries] at h
      split at h
      · cases h
      · next b₁ offset hvisit =>
        by_cases hindex : i < 2 ^ 31
        · rw [show b₁.setDirentNodeOffset dirents i offset = some _ from
            if_pos hindex] at h
          have := ih (i + 1) _ b' h (by omega)
          rw [List.length_cons]
          omega
        · rw [show b₁.setDirentNodeOffset dirents i offset = none from
            if_neg hindex] at h
          cases h

/-- A visit that fails fails the loop. -/
theorem scanEntries_none (dirents : Nat) {es : List (Bytes × Visit)}
    {e : Bytes × Visit} (he : e ∈ es) (hnone : ∀ b, e.2 b = none) :
    ∀ (i : Nat) (b : MetaFSBuilder), scanEntries dirents i es b = none := by
  induction es with
  | nil => cases he
  | cons e' es ih =>
      intro i b
      rw [scanEntries]
      rcases List.mem_cons.1 he with rfl | he
      · rw [hnone b]
      · split
        · rfl
        · split
          · rfl
          · exact ih he _ _

/-- A directory with more entries than an `int` can index is fatal,
wherever it is. -/
theorem scanDfs_crowded {t : SourceTree} (h : Crowded t) :
    ∀ b : MetaFSBuilder, scanDfs heap t b = none := by
  obtain ⟨path, s, hnamed, hs⟩ := h
  induction hnamed with
  | here t supported =>
      intro b
      cases t with
      | gone => cases supported
      | node st xattrs target entries =>
          rw [kept] at hs
          split at hs
          · next hdir =>
            obtain ⟨hlnk, hreg⟩ := not_lnk_reg_of_dir hdir
            have hsup : isSupported st.mode.toNat = true := supported
            rw [scanDfs, if_neg (not_not.2 hsup), hlnk, hreg,
              if_neg (by simp), if_neg (by simp), sorted_scanners]
            simp only
            split
            · rfl
            · next b₁ addr dirents hadd =>
              split
              · rfl
              · next b' hscan =>
                have := scanEntries_index dirents _ 0 b₁ b' hscan (by omega)
                rw [List.length_map] at this
                omega
          · simp at hs
  | entry t e path s listed rest ih =>
      intro b
      cases t with
      | gone => cases listed
      | node st xattrs target entries =>
          rw [kept] at listed
          split at listed
          · next hdir =>
            obtain ⟨hlnk, hreg⟩ := not_lnk_reg_of_dir hdir
            have hsup : isSupported st.mode.toNat = true := by
              simp [isSupported, hdir]
            have hmem : visit heap e
                ∈ (sortedEntries entries).map (visit heap) :=
              List.mem_map_of_mem listed
            rw [scanDfs, if_neg (not_not.2 hsup), hlnk, hreg,
              if_neg (by simp), if_neg (by simp), sorted_scanners]
            simp only
            split
            · rfl
            · rw [scanEntries_none _ hmem (ih hs)]
          · cases listed

/-- Each kept entry takes sixteen bytes at least. -/
theorem length_kept_le (t : SourceTree) : 16 * t.kept.length ≤ t.extent := by
  cases t with
  | gone => exact Nat.zero_le _
  | node st xattrs target entries =>
      rw [kept]
      split
      · next hdir =>
        have hextent := @extent_dir st xattrs target entries hdir 0
        have hlen := namesLen_eq ((sortedEntries entries).map Prod.fst)
        rw [headEnd, hlen, List.length_map] at hextent
        omega
      · exact Nat.zero_le _

/-- A tree of few bytes is not crowded. -/
theorem not_crowded {t : SourceTree} (h : t.extent ≤ 2 ^ 32) :
    ¬ Crowded t := by
  intro ⟨path, s, hnamed, hs⟩
  obtain ⟨p, hplaced⟩ := hnamed.placed 0
  have hwithin := hplaced.within
  have hlen := length_kept_le s
  omega

/-- The scan of a small tree completes. -/
theorem scanDfs_small (heap : Nat → Mem) {t : SourceTree}
    (hsup : t.supported = true) (h : t.extent ≤ 2 ^ 32) :
    ∃ b, scanDfs heap t (.start heap) = some (b, usizeSize) := by
  rcases scanDfs_spec heap t (.start heap)
    (show usizeSize ≤ chunkSizeBytes by decide)
    with ⟨b, hscan, -⟩ | ⟨-, hlimit | hcrowded⟩
  · rw [hsup, if_pos rfl] at hscan
    exact ⟨b, hscan⟩
  · have hmax : allocLimit = 2 ^ 63 - 1 := rfl
    have hpos : (start heap).currentPos = 8 := rfl
    omega
  · exact absurd hcrowded (not_crowded h)

end MetaFSBuilder

end Distfs

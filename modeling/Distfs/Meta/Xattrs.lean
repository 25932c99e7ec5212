/-
The records of the extended attributes of a node.

`add_xattrs` writes an array of entries, and behind it for each
attribute its name, the length of its value and the value. `Record` says
this of one attribute, `XattrsAt` of a node with all of them: the nodes
of `add_file`, `add_link` and `add_dir` alike (`xattrsAt_addFile` and so
on), and of every image that keeps their bytes (`XattrsAt.congr`).

The value is stored by `strncpy`, so what stands there is `strncpyBytes`
of it and not the value itself.
-/
import Distfs.Meta.Lookup

namespace Distfs

open MetaFSBuilder SourceTree

-- ======================================================== one record

/-- Entry `i` of the array at `ents` is that of the attribute, which
stands between `lo` and `hi`. -/
structure Record (m : Mem) (ents i : Nat) (x : Bytes × Bytes)
    (lo hi : Nat) : Prop where
  start : lo ≤ Entry.nameOffset m ents i
  behind : Entry.dataOffset m ents i
    = Entry.nameOffset m ents i + (x.1.length + 1)
  stop : Entry.dataOffset m ents i + 8 + (x.2.length + 1) ≤ hi
  name : 0 ∉ x.1 → m.CStr (Entry.nameOffset m ents i) x.1
  size : m.readLe (Entry.dataOffset m ents i) 8 = x.2.length
  value : m.read (Entry.dataOffset m ents i + 8) (x.2.length + 1)
    = Mem.strncpyBytes x.2 (x.2.length + 1)

namespace Record

variable {m m' : Mem} {ents i lo hi lo' hi' : Nat} {x : Bytes × Bytes}

theorem congr (h : Record m ents i x lo hi)
    (hentry : ∀ a, ents + 16 * i ≤ a → a < ents + 16 * i + 16 → m a = m' a)
    (hbody : ∀ a, lo ≤ a → a < hi → m a = m' a) :
    Record m' ents i x lo hi := by
  have hname : Entry.nameOffset m ents i = Entry.nameOffset m' ents i :=
    Entry.nameOffset_congr fun a ha ha' => hentry a ha (by omega)
  have hdata : Entry.dataOffset m ents i = Entry.dataOffset m' ents i :=
    Entry.dataOffset_congr fun a ha ha' => hentry a (by omega) ha'
  obtain ⟨hstart, hbehind, hstop, hstr, hsize, hvalue⟩ := h
  refine ⟨hname ▸ hstart, hname ▸ hdata ▸ hbehind, hdata ▸ hstop,
    fun h0 => ?_, ?_, ?_⟩
  · rw [← hname]
    exact (hstr h0).congr fun a ha ha' => hbody a (by omega) (by omega)
  · rw [← hdata, ← hsize]
    exact (Mem.readLe_congr fun a ha ha' =>
      hbody a (by omega) (by omega)).symm
  · rw [← hdata, ← hvalue]
    exact (Mem.read_congr fun a ha ha' =>
      hbody a (by omega) (by omega)).symm

theorem mono (h : Record m ents i x lo hi) (hlo : lo' ≤ lo)
    (hhi : hi ≤ hi') : Record m ents i x lo' hi' :=
  { h with
    start := Nat.le_trans hlo h.start
    stop := Nat.le_trans h.stop hhi }

end Record

namespace MetaFSBuilder

/-- One turn of the loop of `add_xattrs` writes one record. -/
theorem record_written (m : Mem) (ents i pos : Nat) (name value : Bytes)
    (hpos : ents + 16 * i + 16 ≤ pos)
    (hlt : pos + (name.length + 1) + 8 + (value.length + 1) < 2 ^ 64) :
    Record ((((Entry.setDataOffset ((Entry.setNameOffset m ents i pos).write
        pos (Mem.strncpyBytes name (name.length + 1))) ents i
        (pos + (name.length + 1))).writeLe (pos + (name.length + 1)) 8
        value.length).write (pos + (name.length + 1) + 8)
        (Mem.strncpyBytes value (value.length + 1)))) ents i (name, value)
      pos (pos + (name.length + 1) + 8 + (value.length + 1)) := by
  generalize hm₁ : Entry.setNameOffset m ents i pos = m₁
  generalize hm₂ : m₁.write pos (Mem.strncpyBytes name (name.length + 1)) = m₂
  generalize hm₃ : Entry.setDataOffset m₂ ents i (pos + (name.length + 1)) = m₃
  generalize hm₄ : m₃.writeLe (pos + (name.length + 1)) 8 value.length = m₄
  generalize hm₅ : m₄.write (pos + (name.length + 1) + 8)
    (Mem.strncpyBytes value (value.length + 1)) = m₅
  -- what each of the five stores leaves alone
  have h₅ : ∀ a, a < pos + (name.length + 1) + 8 → m₅ a = m₄ a := fun a ha =>
    hm₅ ▸ Mem.write_outside m₄ (.inl ha)
  have h₄ : ∀ a, a < pos + (name.length + 1) → m₄ a = m₃ a := fun a ha =>
    hm₄ ▸ Mem.writeLe_outside m₃ (.inl ha)
  have h₃ : ∀ a, a < ents + 16 * i + 8 ∨ ents + 16 * i + 16 ≤ a →
      m₃ a = m₂ a := fun a ha => hm₃ ▸ Entry.setDataOffset_outside ha
  have h₂ : ∀ a, a < pos → m₂ a = m₁ a := fun a ha =>
    hm₂ ▸ Mem.write_outside m₁ (.inl ha)
  have hname : Entry.nameOffset m₅ ents i = pos := by
    have hself : Entry.nameOffset m₁ ents i = pos % 2 ^ 64 :=
      hm₁ ▸ Entry.nameOffset_setNameOffset
    have hkeep : Entry.nameOffset m₅ ents i = Entry.nameOffset m₁ ents i :=
      Entry.nameOffset_congr fun a ha ha' => by
        rw [h₅ a (by omega), h₄ a (by omega), h₃ a (by omega),
          h₂ a (by omega)]
    rw [hkeep, hself]
    exact Nat.mod_eq_of_lt (by omega)
  have hdata : Entry.dataOffset m₅ ents i = pos + (name.length + 1) := by
    have hself : Entry.dataOffset m₃ ents i
        = (pos + (name.length + 1)) % 2 ^ 64 :=
      hm₃ ▸ Entry.dataOffset_setDataOffset
    have hkeep : Entry.dataOffset m₅ ents i = Entry.dataOffset m₃ ents i :=
      Entry.dataOffset_congr fun a ha ha' => by
        rw [h₅ a (by omega), h₄ a (by omega)]
    rw [hkeep, hself]
    exact Nat.mod_eq_of_lt (by omega)
  refine ⟨Nat.le_of_eq hname.symm, by rw [hdata, hname], by rw [hdata],
    fun h0 => ?_, ?_, ?_⟩
  · rw [hname]
    have hwritten : m₂.CStr pos name := hm₂ ▸ Mem.cstr_write h0
    exact hwritten.congr fun a ha ha' => by
      rw [h₅ a (by omega), h₄ a (by omega), h₃ a (by omega)]
  · have hself : m₄.readLe (pos + (name.length + 1)) 8
        = value.length % 256 ^ 8 := hm₄ ▸ Mem.readLe_writeLe_self m₃ _ 8 _
    have hkeep : m₅.readLe (pos + (name.length + 1)) 8
        = m₄.readLe (pos + (name.length + 1)) 8 :=
      Mem.readLe_congr fun a ha ha' => h₅ a (by omega)
    rw [hdata, hkeep, hself]
    exact Nat.mod_eq_of_lt (by omega)
  · have hself := Mem.read_write_self m₄ (pos + (name.length + 1) + 8)
      (Mem.strncpyBytes value (value.length + 1))
    rw [Mem.length_strncpyBytes, hm₅] at hself
    rw [hdata]
    exact hself

/-- The loop writes a record for each attribute. -/
theorem addXattrsFrom_records (ents : Nat) (xattrs : Xattrs) :
    ∀ (i : Nat) (m : Mem) (pos : Nat),
      ents + 16 * (i + xattrs.length) ≤ pos →
      pos + xattrsBody xattrs < 2 ^ 64 →
      ∀ k x, xattrs[k]? = some x →
        Record (addXattrsFrom ents i xattrs m pos).1 ents (i + k) x pos
          (pos + xattrsBody xattrs) := by
  induction xattrs with
  | nil =>
      intro i m pos _ _ k x hx
      cases hx
  | cons y xattrs ih =>
      obtain ⟨name, value⟩ := y
      intro i m pos hpos hlt k x hx
      have hbody : xattrsBody ((name, value) :: xattrs)
          = name.length + 1 + 8 + (value.length + 1)
            + xattrsBody xattrs := rfl
      have hlen : ((name, value) :: xattrs).length = xattrs.length + 1 := rfl
      have hhead := record_written m ents i pos name value (by omega)
        (by omega)
      rw [addXattrsFrom, usizeSize]
      generalize hm : Mem.write (Mem.writeLe (Entry.setDataOffset _ ents i
        _) _ 8 value.length) _ _ = m₁ at hhead ⊢
      obtain ⟨-, hout, -⟩ := addXattrsFrom_spec ents xattrs (i + 1) m₁
        (pos + (name.length + 1) + 8 + (value.length + 1)) (by omega)
      cases k with
      | zero =>
          cases hx
          -- later turns write behind this record and its entry
          refine (hhead.congr (fun a ha ha' => ?_) fun a ha ha' => ?_).mono
            (Nat.le_refl _) (by omega)
          · exact (hout a (by omega) (by omega)).symm
          · exact (hout a (by omega) (by omega)).symm
      | succ k =>
          have htail := ih (i + 1) m₁
            (pos + (name.length + 1) + 8 + (value.length + 1)) (by omega)
            (by omega) k x hx
          rw [show i + (k + 1) = i + 1 + k by omega]
          exact htail.mono (by omega) (by omega)

theorem addXattrs_records (xattrs : Xattrs) (m : Mem) (pos : Nat)
    (hlt : pos + xattrsLen xattrs < 2 ^ 64) {k : Nat} {x : Bytes × Bytes}
    (hx : xattrs[k]? = some x) :
    Record (addXattrs xattrs m pos).1 pos k x (pos + 16 * xattrs.length)
      (pos + xattrsLen xattrs) := by
  have hlen := xattrsLen_eq xattrs
  have hrecord := addXattrsFrom_records pos xattrs 0 m
    (pos + 16 * xattrs.length) (by omega) (by omega) k x hx
  rw [Nat.zero_add] at hrecord
  exact hrecord.mono (Nat.le_refl _) (by omega)

end MetaFSBuilder

-- ======================================================== the records

/-- The node at `n` has these extended attributes. -/
structure XattrsAt (m : Mem) (n : Nat) (xattrs : Xattrs) : Prop where
  count : Node.xattrsCount m n = uint32 xattrs.length
  record : ∀ k x, xattrs[k]? = some x →
    Record m (n + nodeSize) k x (n + nodeSize + 16 * xattrs.length)
      (n + nodeSize + xattrsLen xattrs)
  fits : n + nodeSize + xattrsLen xattrs ≤ allocLimit

/-- They stand wherever their bytes do. -/
theorem XattrsAt.congr {m m' : Mem} {n : Nat} {xattrs : Xattrs}
    (h : XattrsAt m n xattrs)
    (hcount : ∀ a, n + 48 ≤ a → a < n + 52 → m a = m' a)
    (hbody : ∀ a, n + nodeSize ≤ a → a < n + nodeSize + xattrsLen xattrs →
      m a = m' a) : XattrsAt m' n xattrs := by
  have hlen := xattrsLen_eq xattrs
  refine ⟨?_, fun k x hx => ?_, h.fits⟩
  · rw [← h.count]
    exact (Mem.readLe_congr fun a ha ha' => hcount a ha (by omega)).symm
  · obtain ⟨hk, -⟩ := List.getElem?_eq_some_iff.1 hx
    refine (h.record k x hx).congr (fun a ha ha' => ?_) fun a ha ha' => ?_
    · exact hbody a (by omega) (by omega)
    · exact hbody a (by omega) ha'

namespace MetaFSBuilder

variable {heap : Nat → Mem} {b b' : MetaFSBuilder} {st : Stat}
  {xattrs : Xattrs} {n : Nat}

theorem xattrsCount_setXattrsCount (m : Mem) (n v : Nat) :
    Node.xattrsCount (Node.setXattrsCount m n v) n = v % 2 ^ 32 :=
  Mem.readLe_writeLe_self m (n + 48) 4 v

/-- What all three kinds of nodes begin with. -/
theorem xattrsAt_written (m : Mem) (n : Nat) (xattrs : Xattrs)
    (hfits : n + nodeSize + xattrsLen xattrs ≤ allocLimit) :
    XattrsAt (addXattrs xattrs (Node.setXattrsCount m n
      (uint32 xattrs.length)) (n + nodeSize)).1 n xattrs := by
  have hnode : nodeSize = 72 := rfl
  have hlimit : allocLimit = 2 ^ 63 - 1 := rfl
  obtain ⟨-, hout, -⟩ := addXattrs_spec xattrs
    (Node.setXattrsCount m n (uint32 xattrs.length)) (n + nodeSize)
  refine ⟨?_, fun k x hx => addXattrs_records xattrs _ _ (by omega) hx, hfits⟩
  have hkeep : Node.xattrsCount (addXattrs xattrs (Node.setXattrsCount m n
      (uint32 xattrs.length)) (n + nodeSize)).1 n
      = Node.xattrsCount (Node.setXattrsCount m n (uint32 xattrs.length)) n :=
    Mem.readLe_congr fun a ha ha' => hout a (by omega)
  rw [hkeep, xattrsCount_setXattrsCount, uint32, Nat.mod_mod]

/-- The room that `reserve_buffer` makes. -/
theorem reserveBuffer_room {length : Nat}
    (h : b.reserveBuffer heap length = some b') :
    b'.currentPos = b.currentPos
      ∧ length + b.currentPos ≤ allocLimit := by
  rcases @reserveBuffer_spec heap b length
    with ⟨b₁, hsome, hpos, hroom, -⟩ | ⟨hnone, -⟩
  · rw [h, Option.some.injEq] at hsome
    subst hsome
    exact ⟨hpos, Nat.le_trans hroom b'.dataSize.2.2⟩
  · rw [h] at hnone
    cases hnone

theorem xattrsAt_addFile
    (hadd : b.addFile heap st xattrs = some (b', n)) :
    XattrsAt b'.data n xattrs := by
  unfold addFile at hadd
  split at hadd
  · cases hadd
  · next b₁ hreserve =>
    obtain ⟨hpos, hroom⟩ := reserveBuffer_room hreserve
    cases hadd
    exact xattrsAt_written _ _ xattrs (by rw [hpos]; omega)

theorem xattrsAt_addLink {target : Bytes}
    (hadd : b.addLink heap st target xattrs = some (b', n)) :
    XattrsAt b'.data n xattrs := by
  unfold addLink at hadd
  simp only at hadd
  split at hadd
  · cases hadd
  · next b₁ hreserve =>
    have hnode : nodeSize = 72 := rfl
    obtain ⟨hpos, hroom⟩ := reserveBuffer_room hreserve
    rw [Option.some.injEq, Prod.mk.injEq] at hadd
    obtain ⟨rfl, rfl⟩ := hadd
    have hfits : b₁.currentPos + nodeSize + xattrsLen xattrs
        ≤ allocLimit := by omega
    have hend := (addXattrs_spec xattrs (Node.setXattrsCount
      (setStat st b₁.data b₁.currentPos) b₁.currentPos
      (uint32 xattrs.length)) (b₁.currentPos + nodeSize)).1
    refine (xattrsAt_written (setStat st b₁.data b₁.currentPos) _ xattrs
      hfits).congr (fun a ha ha' => ?_) fun a ha ha' => ?_
    · simp only
      rw [Node.setDataOffset_outside (by omega),
        Mem.write_outside _ (by omega)]
    · simp only
      rw [Node.setDataOffset_outside (by omega),
        Mem.write_outside _ (by omega)]

theorem xattrsAt_addDir {names : List Bytes} {dirents : Nat}
    (hadd : b.addDir heap st names xattrs = some (b', n, dirents)) :
    XattrsAt b'.data n xattrs := by
  unfold addDir at hadd
  split at hadd
  · cases hadd
  · next b₁ hreserve =>
    have hnode : nodeSize = 72 := rfl
    obtain ⟨hpos, hroom⟩ := reserveBuffer_room hreserve
    simp only [Option.some.injEq, Prod.mk.injEq] at hadd
    obtain ⟨rfl, rfl, -⟩ := hadd
    have hfits : b₁.currentPos + nodeSize + xattrsLen xattrs
        ≤ allocLimit := by omega
    have hwritten := xattrsAt_written (Node.setLength
      (setStat st b₁.data b₁.currentPos) b₁.currentPos names.length)
      b₁.currentPos xattrs hfits
    obtain ⟨hend, -, -⟩ := addXattrs_spec xattrs (Node.setXattrsCount
      (Node.setLength (setStat st b₁.data b₁.currentPos) b₁.currentPos
        names.length) b₁.currentPos (uint32 xattrs.length))
      (b₁.currentPos + nodeSize)
    rw [hend]
    obtain ⟨-, hout, -⟩ := addNamesFrom_spec (b₁.currentPos + nodeSize
      + xattrsLen xattrs) names 0 (Node.setDataOffset (addXattrs xattrs
        (Node.setXattrsCount (Node.setLength (setStat st b₁.data
          b₁.currentPos) b₁.currentPos names.length) b₁.currentPos
          (uint32 xattrs.length)) (b₁.currentPos + nodeSize)).1
        b₁.currentPos (b₁.currentPos + nodeSize + xattrsLen xattrs))
      (b₁.currentPos + nodeSize + xattrsLen xattrs
        + entrySize * names.length) (by rw [entrySize]; omega)
    refine hwritten.congr (fun a ha ha' => ?_) fun a ha ha' => ?_
    · simp only
      rw [hout a (by omega) (by omega),
        Node.setDataOffset_outside (by omega)]
    · simp only
      rw [hout a (by omega) (by omega),
        Node.setDataOffset_outside (by omega)]

end MetaFSBuilder

/-- A file with the attributes at the root of an image. -/
theorem xattrsAt_root (xattrs : Xattrs)
    (h : ¬ allocLimit < 2 * (usizeSize + (nodeSize + xattrsLen xattrs))) :
    ∃ b', (MetaFSBuilder.start fun _ _ => 0).addFile (fun _ _ => 0)
        (MetaFileSystem.statOf 0x81A4) xattrs = some (b', usizeSize)
      ∧ MetaFileSystem.getNodeOffset b'.data [47] = some (.ok, usizeSize)
      ∧ XattrsAt b'.data usizeSize xattrs := by
  have hfits : (MetaFSBuilder.start fun _ _ => 0).currentPos
      ≤ (MetaFSBuilder.start fun _ _ => 0).dataSize.1 := by decide
  rcases @addFile_spec (fun _ _ => 0) _ (MetaFileSystem.statOf 0x81A4)
    xattrs hfits with ⟨b', hadd, -⟩ | ⟨-, hlimit⟩
  · exact ⟨b', hadd, rfl, xattrsAt_addFile hadd⟩
  · exact absurd hlimit h

end Distfs

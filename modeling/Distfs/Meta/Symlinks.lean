/-
Reading a link's target back from the image (`add_link`, `get_symlink`).

`get_symlink` copies at most `buff_size - 1` bytes, puts the terminator
at `buff_size`, and calls a target too long if it has more than
`buff_size` bytes. The first of the three leaves room for a terminator
at `buff_size - 1`; the other two are one further. So every call writes
one byte behind the buffer (`getSymlink_never_fills`), and only a target
that `strncpy` pads itself ends up terminated (`getSymlink_terminated`).
-/
import Distfs.Meta.Lookup

namespace Distfs

namespace MetaFileSystem

/-- The node at `n` is a link to `target`. -/
structure LinkAt (m : Mem) (n : Nat) (target : Bytes) : Prop where
  isLnk : sIsLnk (Node.mode m n) = true
  content : m.CStr (Node.dataOffset m n) target
  nulFree : 0 ∉ target
  length : target.length < 2 ^ 64

/-- The node that `add_link` writes is a link to its target, in every
image that has the bytes written. -/
theorem linkAt_of_addLink {heap : Nat → Mem} {b b' : MetaFSBuilder}
    {st : Stat} {target : Bytes} {xattrs : Xattrs} {n : Nat} {m : Mem}
    (hfits : b.currentPos ≤ b.dataSize.1) (h0 : 0 ∉ target)
    (hlnk : sIsLnk st.mode.toNat = true)
    (hadd : b.addLink heap st target xattrs = some (b', n))
    (hm : ∀ a, n ≤ a → a < b'.currentPos → m a = b'.data a) :
    LinkAt m n target := by
  rcases MetaFSBuilder.addLink_spec st target xattrs hfits h0
    with ⟨b₁, hsome, hext, hmode, hoffset, hstr⟩ | ⟨hnone, -⟩
  · rw [hadd, Option.some.injEq, Prod.mk.injEq] at hsome
    obtain ⟨rfl, rfl⟩ := hsome
    have hnode : nodeSize = 72 := rfl
    have hpos := hext.pos
    have hlimit := b'.dataSize.2.2
    have halloc : allocLimit = 2 ^ 63 - 1 := rfl
    have hend := hext.fits
    have hdirents : SourceTree.direntsPos b.currentPos xattrs
        = b.currentPos + nodeSize + xattrsLen xattrs := rfl
    have hmode' : Node.mode m b.currentPos = st.mode.toNat := by
      rw [← hmode]
      exact Mem.readLe_congr fun a hlo hhi => hm a hlo (by omega)
    have hoffset' : Node.dataOffset m b.currentPos
        = SourceTree.direntsPos b.currentPos xattrs := by
      rw [← hoffset]
      exact Mem.readLe_congr fun a hlo hhi => hm a (by omega) (by omega)
    refine ⟨hmode' ▸ hlnk, ?_, h0, by omega⟩
    rw [hoffset']
    exact hstr.congr fun a hlo hhi => (hm a (by omega) (by omega)).symm
  · rw [hnone] at hadd
    cases hadd

variable {m : Mem} {path target : Bytes} {n buffSize : Nat}

/-- What `get_symlink` does at a link. -/
theorem getSymlink_spec (hpath : getNodeOffset m path = some (.ok, n))
    (hlink : LinkAt m n target) (hpos : 0 < buffSize)
    (hsize : buffSize < 2 ^ 64) :
    getSymlink m path buffSize
      = some ((if buffSize < target.length then .tooLong else .ok),
          [{ pos := 0, bytes := Mem.strncpyBytes target (buffSize - 1) },
            { pos := buffSize, bytes := [0] }]) := by
  have hbound : usize (buffSize + (2 ^ 64 - 1)) = buffSize - 1 := by
    unfold usize
    omega
  unfold getSymlink
  rw [hpath]
  simp only
  rw [hlink.isLnk, hlink.content.strlen hlink.nulFree hlink.length,
    hlink.content.strncpyFrom hlink.nulFree, hbound]
  simp only [Bool.true_eq_false, if_false]
  split
  · rfl
  · rfl

/-- The buffer is filled safely: nothing is written outside, the target
is in it up to the last byte but one, and terminated, and the answer
says whether it was cut. -/
structure Filled (target : Bytes) (buffSize : Nat)
    (r : ErrorCode × List Mem.Store) : Prop where
  within : ∀ i, Mem.Touches r.2 i → i < buffSize
  content : ∀ buff : Mem,
    (Mem.perform r.2 buff).CStr 0 (target.take (buffSize - 1))
  tooLong : r.1 = .tooLong ↔ buffSize - 1 < target.length
  ok : r.1 = .ok ↔ target.length ≤ buffSize - 1

/-- The target ends up terminated, whatever was in the buffer, if and
only if two bytes of it are left over; and the answer is the wrong one
just for a target of the size of the buffer. -/
theorem getSymlink_terminated (hpath : getNodeOffset m path = some (.ok, n))
    (hlink : LinkAt m n target) (hpos : 0 < buffSize)
    (hsize : buffSize < 2 ^ 64) :
    ∃ r, getSymlink m path buffSize = some r
      ∧ ((∀ buff : Mem,
          (Mem.perform r.2 buff).CStr 0 (target.take (buffSize - 1)))
        ↔ target.length + 2 ≤ buffSize)
      ∧ ((r.1 = .tooLong ↔ buffSize - 1 < target.length)
        ↔ target.length ≠ buffSize) := by
  refine ⟨_, getSymlink_spec hpath hlink hpos hsize, ?_, ?_⟩
  · constructor
    · -- one byte less, and the byte before the last one is not written
      intro h
      by_contra hlong
      have htake : (target.take (buffSize - 1)).length = buffSize - 1 := by
        rw [List.length_take]
        omega
      have hlast := (h fun _ => 1).terminator
      rw [htake, Nat.zero_add, Mem.perform_untouched] at hlast
      · exact absurd hlast (by decide)
      · rw [Mem.touches_cons, Mem.touches_cons, Mem.length_strncpyBytes]
        simp only [Mem.Touches, List.not_mem_nil, false_and, exists_false,
          or_false, List.length_singleton]
        omega
    · intro hshort buff
      obtain ⟨k, hk⟩ : ∃ k, buffSize - 1 - target.length = k + 1 :=
        ⟨buffSize - 2 - target.length, by omega⟩
      rw [List.take_of_length_le (by omega),
        Mem.strncpyBytes_pad hlink.nulFree (by omega), hk,
        List.replicate_succ]
      refine Mem.CStr.congr (m := buff.write 0 (target ++ 0 ::
        List.replicate k 0)) Mem.cstr_write_append fun i _ hi => ?_
      refine (Mem.write_outside _ (.inl ?_)).symm
      show i < buffSize
      omega
  · simp only
    split
    · next hlong =>
      simp only [true_iff]
      omega
    · next hshort =>
      simp only [reduceCtorEq, false_iff]
      omega

/-- Whatever the target and the size, `get_symlink` does not fill the
buffer safely: it writes the byte behind it. -/
theorem getSymlink_never_fills (m : Mem) (path target : Bytes)
    (n buffSize : Nat) (hpath : getNodeOffset m path = some (.ok, n))
    (hlink : LinkAt m n target) (hpos : 0 < buffSize)
    (hsize : buffSize < 2 ^ 64) :
    ¬ ∃ r, getSymlink m path buffSize = some r
      ∧ Filled target buffSize r := by
  intro ⟨r, hr, hfilled⟩
  rw [getSymlink_spec hpath hlink hpos hsize, Option.some.injEq] at hr
  subst hr
  refine Nat.lt_irrefl buffSize (hfilled.within buffSize ?_)
  rw [Mem.touches_cons, Mem.touches_cons]
  simp

/-- The builder behind `add_link` of a link to `a` at the root of an
image. -/
theorem link_at_root : ∃ b', (MetaFSBuilder.start fun _ _ => 0).addLink
      (fun _ _ => 0) (statOf 0xA1FF) [97] [] = some (b', usizeSize)
    ∧ getNodeOffset b'.data [47] = some (.ok, usizeSize)
    ∧ LinkAt b'.data usizeSize [97] := by
  have hfits : (MetaFSBuilder.start fun _ _ => 0).currentPos
      ≤ (MetaFSBuilder.start fun _ _ => 0).dataSize.1 := by decide
  rcases @MetaFSBuilder.addLink_spec (fun _ _ => 0) _ (statOf 0xA1FF) [97] []
    hfits (by decide) with ⟨b', hadd, -⟩ | ⟨-, hlimit⟩
  · exact ⟨b', hadd, rfl, linkAt_of_addLink hfits (by decide) (by decide)
      hadd fun a _ _ => rfl⟩
  · exact absurd hlimit (by decide)

theorem getSymlink_never_fills_root : ∃ b',
    (MetaFSBuilder.start fun _ _ => 0).addLink (fun _ _ => 0)
        (statOf 0xA1FF) [97] [] = some (b', usizeSize)
      ∧ ¬ ∃ r, getSymlink b'.data [47] 4097 = some r
        ∧ Filled [97] 4097 r := by
  obtain ⟨b', hadd, hpath, hlink⟩ := link_at_root
  exact ⟨b', hadd, getSymlink_never_fills b'.data [47] [97] usizeSize 4097
    hpath hlink (by omega) (by omega)⟩

/-- The link to `a` is answered to a buffer of two bytes with a NUL in
the third one, and none in the second. -/
theorem getSymlink_third_byte : ∃ b',
    (MetaFSBuilder.start fun _ _ => 0).addLink (fun _ _ => 0)
        (statOf 0xA1FF) [97] [] = some (b', usizeSize)
      ∧ getSymlink b'.data [47] 2
        = some (.ok, [{ pos := 0, bytes := [97] }, { pos := 2, bytes := [0] }])
      ∧ ¬ Filled [97] 2
        (.ok, [{ pos := 0, bytes := [97] }, { pos := 2, bytes := [0] }]) := by
  obtain ⟨b', hadd, hpath, hlink⟩ := link_at_root
  refine ⟨b', hadd, getSymlink_spec hpath hlink (by omega) (by omega),
    fun h => ?_⟩
  have houtside := h.within 2
    ⟨_, List.mem_cons_of_mem _ List.mem_cons_self, by decide⟩
  exact Nat.lt_irrefl 2 houtside

end MetaFileSystem

end Distfs

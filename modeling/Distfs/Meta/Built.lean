/-
What a completed `MetaFSBuilder::build` leaves in the chunks: the image
at address zero, and every file where its node says.

# How the parts meet

`scan_dfs` leaves the records (`scanDfs_spec`), and `build` stores the
length in front of them. The chunk builder is a flat file: `reserve`
moves its cursor behind the image, the loop of `create_chunks` puts the
files there (`createLoop_spec`), and the image is written last, to
addresses no file has. `ChunkBuilder::build` brings all of it into the
store.
-/
import Distfs.Data.DataProvider
import Distfs.Meta.QueueLoop

namespace Distfs

open SourceTree ChunkBuilder DataProvider

namespace MetaFSBuilder

/-- What a completed build leaves in the chunks. -/
structure Leaves {σ : Type} (chunks : UInt32 → Option Bytes)
    (t : SourceTree) (source : List Bytes → SourceFile) (r : Built σ) :
    Prop where
  err : r.err = .ok
  size : r.size = usizeSize + t.extent
  fits : r.size ≤ allocLimit
  length : r.data.readLe 0 usizeSize = r.size
  records : At r.data usizeSize t
  image : Covers chunks 0 (r.data.read 0 r.size)
  content : ∀ path p content, RegularAt t path p →
    delivered (source path) = some content →
    Node.length r.data p = content.length
      ∧ r.size ≤ Node.dataOffset r.data p
      ∧ Covers chunks (Node.dataOffset r.data p) content
  missing : ∀ path p, RegularAt t path p →
    delivered (source path) = none →
    Node.dataOffset r.data p = 2 ^ 64 - 1 ∧ Node.length r.data p = 0
  apart : ∀ path p path' p', RegularAt t path p → RegularAt t path' p' →
    p ≠ p' →
    Node.dataOffset r.data p + Node.length r.data p
        ≤ Node.dataOffset r.data p'
      ∨ Node.dataOffset r.data p' + Node.length r.data p'
        ≤ Node.dataOffset r.data p
  addressed : ∀ path p, RegularAt t path p →
    Node.dataOffset r.data p + Node.length r.data p < 2 ^ 64
  whole : ∀ id c, chunks id = some c → c.length = chunkSizeBytes

/-- How many addresses the image and the files take. -/
def totalLen (t : SourceTree) (source : List Bytes → SourceFile) : Nat :=
  usizeSize + t.extent + dataLen (sizeAt source) [] t

/-- What stands in the flat file is in the chunks. -/
theorem covers_of_holds {chunks : UInt32 → Option Bytes} {f : FlatFile}
    (hstored : ∀ a v, f.bytes a = some v →
      ∃ chunk, chunks (UInt32.ofNat (a / chunkSizeBytes)) = some chunk
        ∧ chunk[a % chunkSizeBytes]? = some v)
    {a : Nat} {bs : Bytes} (h : f.Holds a bs) : Covers chunks a bs := by
  intro i hi
  rw [List.getElem?_eq_getElem hi]
  refine hstored (a + i) _ ?_
  rw [h i hi, List.getElem?_eq_getElem hi]

section Build

variable {σ : Type} {ops : ChunkOps σ} {ready : σ → Prop}
  {view : σ → UInt32 → Option Bytes} {openAt : Bytes → SourceFile}
  {heap : Nat → Mem} {root : Bytes} {t : SourceTree} {top : Nat}

/-- The loop runs on the image with its length stored, and all records
still there. -/
theorem scanned {b : MetaFSBuilder} {off : Nat}
    (hscan : scanDfs heap t (start heap) = some (b, off)) :
    b.currentPos = usizeSize + t.extent ∧ b.currentPos ≤ b.dataSize.1
      ∧ At (b.data.writeLe 0 usizeSize b.currentPos) usizeSize t := by
  rcases scanDfs_spec heap t (start heap)
      (show usizeSize ≤ chunkSizeBytes by decide)
    with ⟨b', hsome, hext, hat⟩ | ⟨hnone, -⟩
  · rw [hscan, Option.some.injEq, Prod.mk.injEq] at hsome
    obtain ⟨rfl, -⟩ := hsome
    refine ⟨hext.pos, hext.fits, hat.congr fun a hlo _ _ => ?_⟩
    exact (Mem.writeLe_outside _ (.inr hlo)).symm
  · exact absurd (hscan.symm.trans hnone) (Option.some_ne_none _)

/-- Once the queue is empty, every file is filled in; and the words that
are no slack are those of before. -/
theorem LoopInv.done {source : List Bytes → SourceFile} {m₀ m : Mem}
    {lo : Nat} {f : FlatFile} (h : LoopInv t source m₀ lo top [] m f) :
    (∀ path p, RegularAt t path p → Filled m f lo (source path) p)
      ∧ ∀ path p path' p', RegularAt t path p → RegularAt t path' p' →
        p ≠ p' →
        Node.dataOffset m p + Node.length m p ≤ Node.dataOffset m p'
          ∨ Node.dataOffset m p' + Node.length m p'
            ≤ Node.dataOffset m p := by
  have hsettled : ∀ path p, RegularAt t path p → Settled t [] path p :=
    fun path p hp => ⟨hp, fun x hx => absurd hx List.not_mem_nil⟩
  exact ⟨fun path p hp => h.filled path p (hsettled path p hp),
    fun path p path' p' hp hp' =>
      h.ranges path p path' p' (hsettled path p hp) (hsettled path' p' hp')⟩

/-- If the scan completes, so does the build, with as many turns as the
image has bytes; unless its queue loop does not, the read of some file
being cut short after a failure. -/
theorem build_returns
    (hf : ops.Faithful ready view fun id => id.toNat ≤ top / chunkSizeBytes)
    (htop : top ≤ 2 ^ 32 * chunkSizeBytes)
    (hfound : Found t) (hsup : t.supported = true)
    (htotal : totalLen t (sourceAt openAt root) ≤ top)
    {s : σ} (hready : ready s) (hempty : ∀ id, view s id = none) (buff : Mem)
    {b : MetaFSBuilder} {off : Nat}
    (hscan : scanDfs heap t (start heap) = some (b, off)) {fuel : Nat}
    (hfuel : t.extent ≤ fuel) :
    (∃ reply b₁, (new s buff).reserve ops b.currentPos = some (reply, b₁)
        ∧ reply.err = .ok
        ∧ createLoop ops openAt b.dataSize.1 fuel [(usizeSize, root)]
          (b.data.writeLe 0 usizeSize b.currentPos) b₁ = none
        ∧ ∃ path st, Named t path st ∧ st.isReg = true
          ∧ ¬ Sound (sourceAt openAt root path))
      ∨ ∃ r, build ops openAt fuel heap root t (new s buff) = some r
        ∧ ready r.chunks.store
        ∧ Leaves (view r.chunks.store) t
          (sourceAt openAt root) r := by
  have hlast : top < 2 ^ 64 := by
    have := chunkSizeBytes_eq
    omega
  obtain ⟨hpos, hfits, hat⟩ := scanned hscan
  have halloc := Nat.le_trans hfits b.dataSize.2.2
  have hmax : allocLimit = 2 ^ 63 - 1 := rfl
  rw [totalLen, ← hpos] at htotal
  generalize hm₀ : b.data.writeLe 0 usizeSize b.currentPos = m₀ at hat
  -- the space for the image
  have hnew : Refines ready view top (new s buff) .empty :=
    refines_new hready hempty buff
  obtain ⟨b₁, hreserve, hrefines₁⟩ := hnew.serve hf htop
    (r := .reserve b.currentPos) (show 0 + b.currentPos ≤ top by omega) hlast
  have hcursor : (flat FlatFile.empty (.reserve b.currentPos)).cursor
      = b.currentPos := Nat.zero_add _
  rw [serve, flatReply] at hreserve
  -- the files
  have hinv₀ : LoopInv t (sourceAt openAt root) m₀ b.currentPos top
      [{ pos := usizeSize, path := [], tree := t }] m₀
      (flat FlatFile.empty (.reserve b.currentPos)) :=
    loopInv_start hsup (Nat.le_of_eq hcursor.symm) (by omega)
  have hsize : usizeSize + t.extent ≤ b.dataSize.1 := by omega
  have hloop := createLoop_spec hf htop hfound hat hsize fuel _ m₀ b₁ _
    hinv₀ hrefines₁ (by simpa using hfuel)
  rw [List.map_singleton, Item.queued,
    show root ++ slashed [] = root from List.append_nil root] at hloop
  rcases hloop with ⟨hnone, hunsound⟩ | ⟨m, b₂, f, hsome, hrefines₂, hinv⟩
  · exact .inl ⟨_, b₁, hreserve, rfl, hm₀ ▸ hnone, hunsound⟩
  · -- the image itself
    obtain ⟨b₃, hwrite, hrefines₃⟩ := hrefines₂.serve hf htop
      (r := .write 0 (m.read 0 b.currentPos))
      (show 0 + _ ≤ top by rw [Mem.length_read]; omega) hlast
    rw [serve, flatReply] at hwrite
    obtain ⟨b₄, hbuild, hready', hstored, hwhole⟩ := hrefines₃.build hf
    refine .inr ⟨{ err := .ok, data := m, size := b.currentPos
                   chunks := b₄ }, ?_, hready', ?_⟩
    · unfold build createChunks
      rw [hscan]
      simp only [hm₀]
      rw [hreserve]
      simp [hsome, hwrite, hbuild, FlatFile.empty]
    · obtain ⟨hfilled, hranges⟩ := hinv.done
      have hroom : f.cursor ≤ top := hinv.room
      refine ⟨rfl, hpos, halloc, ?_, ?_, ?_, ?_, ?_, hranges, ?_, hwhole⟩
      · show m.readLe 0 usizeSize = b.currentPos
        have hword : m.readLe 0 usizeSize = m₀.readLe 0 usizeSize := by
          refine Mem.readLe_congr fun a _ hhi => hinv.frame a fun hslack => ?_
          obtain ⟨path, p, st, hplaced, -, hlo, -⟩ := hslack
          have := hplaced.within
          omega
        rw [hword, ← hm₀, Mem.readLe_writeLe_self, Nat.mod_eq_of_lt]
        show b.currentPos < 256 ^ 8
        omega
      · exact hat.congr fun a _ _ ha => (hinv.frame a ha).symm
      · exact covers_of_holds hstored (FlatFile.holds_put _ _)
      · intro path p content hp hcontent
        obtain ⟨hlen, hholds, hlo, -⟩ :=
          (hfilled path p hp).some content hcontent
        refine ⟨hlen, hlo, covers_of_holds hstored ?_⟩
        refine FlatFile.Holds.put hholds (.inr ?_)
        rw [Mem.length_read]
        show 0 + b.currentPos ≤ Node.dataOffset m p
        omega
      · exact fun path p hp => (hfilled path p hp).none
      · intro path p hp
        show Node.dataOffset m p + Node.length m p < 2 ^ 64
        rcases (hfilled path p hp).range with hbefore | ⟨hoff, hlen⟩ <;> omega

/-- If the scan completes, so does the build, with as many turns as the
image has bytes; unless the read of some file is cut short after a
failure. -/
theorem build_spec
    (hf : ops.Faithful ready view fun id => id.toNat ≤ top / chunkSizeBytes)
    (htop : top ≤ 2 ^ 32 * chunkSizeBytes)
    (hfound : Found t) (hsup : t.supported = true)
    (htotal : totalLen t (sourceAt openAt root) ≤ top)
    {s : σ} (hready : ready s) (hempty : ∀ id, view s id = none) (buff : Mem)
    {b : MetaFSBuilder} {off : Nat}
    (hscan : scanDfs heap t (start heap) = some (b, off)) {fuel : Nat}
    (hfuel : t.extent ≤ fuel) :
    (build ops openAt fuel heap root t (new s buff) = none
        ∧ ∃ path st, Named t path st ∧ st.isReg = true
          ∧ ¬ Sound (sourceAt openAt root path))
      ∨ ∃ r, build ops openAt fuel heap root t (new s buff) = some r
        ∧ ready r.chunks.store
        ∧ Leaves (view r.chunks.store) t
          (sourceAt openAt root) r := by
  rcases build_returns hf htop hfound hsup htotal hready hempty buff hscan
      hfuel with ⟨reply, b₁, hreserve, hok, hloop, hunsound⟩ | hleaves
  · refine .inl ⟨?_, hunsound⟩
    unfold build createChunks
    simp [hscan, hreserve, hok, hloop]
  · exact .inr hleaves

/-- More turns change nothing once a build completes. -/
theorem build_mono {chunks : ChunkBuilder σ} {fuel : Nat} {r : Built σ}
    (h : build ops openAt fuel heap root t chunks = some r) (k : Nat) :
    build ops openAt (fuel + k) heap root t chunks = some r := by
  unfold build createChunks at h ⊢
  cases hscan : scanDfs heap t (start heap) with
  | none =>
      rw [hscan] at h
      exact absurd h.symm (Option.some_ne_none r)
  | some scanned =>
      obtain ⟨b, off⟩ := scanned
      rw [hscan] at h
      simp only at h ⊢
      cases hreserve : chunks.reserve ops b.currentPos with
      | none =>
          rw [hreserve] at h
          exact absurd h.symm (Option.some_ne_none r)
      | some reserved =>
          obtain ⟨reply, chunks'⟩ := reserved
          rw [hreserve] at h
          simp only at h ⊢
          by_cases herr : reply.err ≠ .ok
          · rw [if_pos herr] at h ⊢
            exact h
          · rw [if_neg herr] at h ⊢
            cases hloop : createLoop ops openAt b.dataSize.1 fuel
                [(usizeSize, root)] (b.data.writeLe 0 usizeSize b.currentPos)
                chunks' with
            | none =>
                rw [hloop] at h
                exact absurd h.symm (Option.some_ne_none r)
            | some looped =>
                rw [createLoop_mono k fuel _ _ _ hloop]
                rw [hloop] at h
                exact h

/-- What every completed build leaves. -/
theorem leaves_of_build
    (hf : ops.Faithful ready view fun id => id.toNat ≤ top / chunkSizeBytes)
    (htop : top ≤ 2 ^ 32 * chunkSizeBytes)
    (hfound : Found t) (hsup : t.supported = true)
    (htotal : totalLen t (sourceAt openAt root) ≤ top)
    {s : σ} (hready : ready s) (hempty : ∀ id, view s id = none) {buff : Mem}
    {fuel : Nat} {r : Built σ}
    (hbuild : build ops openAt fuel heap root t (new s buff) = some r) :
    ready r.chunks.store
      ∧ Leaves (view r.chunks.store) t (sourceAt openAt root) r := by
  cases hscan : scanDfs heap t (start heap) with
  | none =>
      unfold build at hbuild
      rw [hscan] at hbuild
      exact absurd hbuild.symm (Option.some_ne_none r)
  | some scanned =>
      rcases build_spec hf htop hfound hsup htotal hready hempty buff hscan
          (Nat.le_add_left t.extent fuel)
        with ⟨hnone, -⟩ | ⟨r', hsome, hleaves⟩
      · rw [build_mono hbuild] at hnone
        exact absurd hnone (Option.some_ne_none r)
      · rw [build_mono hbuild, Option.some.injEq] at hsome
        rw [hsome]
        exact hleaves

/-- The image of a path with nothing to scan, in cleared memory: its
length. -/
def emptyImage : Mem := Mem.writeLe (fun _ => 0) 0 usizeSize usizeSize

/-- Within the first chunk the builder moves without the store. -/
theorem movePos_first {c : ChunkBuilder σ} {n : Nat} (hnum : c.chunkNum = 0)
    (hn : n < chunkSizeBytes) :
    movePos ops c n = some (.ok, { c with pos := n }) := by
  have hdiv : n / chunkSizeBytes = c.chunkNum.toNat := by
    rw [hnum]
    exact Nat.div_eq_of_lt hn
  rw [movePos, if_neg (not_not.2 hdiv)]

/-- There the image is copied into the buffer. -/
theorem write_emptyImage (s : σ) (buff : Mem) :
    ChunkBuilder.write ops { new s buff with pos := usizeSize } 0
        (emptyImage.read 0 usizeSize)
      = some ({ err := .ok, offset := 0, length := 0 },
        { new s buff with
          pos := usizeSize
          buff := buff.write 0 (emptyImage.read 0 usizeSize) }) := by
  have hchunk := chunkSizeBytes_eq
  have hsize : usizeSize = 8 := rfl
  have hlen : (emptyImage.read 0 usizeSize).length = usizeSize :=
    Mem.length_read _ _ _
  unfold ChunkBuilder.write
  rw [movePos_first rfl (by omega)]
  simp only [ne_eq, not_true_eq_false, if_false]
  rw [writeData, dif_pos (by omega)]
  simp only [Nat.zero_mod, hlen, Nat.sub_zero, Nat.zero_add,
    show min chunkSizeBytes usizeSize = usizeSize from rfl,
    show usize usizeSize = usizeSize from rfl,
    List.take_of_length_le (Nat.le_of_eq hlen)]
  rw [movePos_first rfl (by omega)]
  simp only [ne_eq, not_true_eq_false, if_false]
  rw [writeData, dif_neg (by rw [List.length_drop]; omega)]
  rfl

/-- Where there is nothing to scan, and memory is cleared, the first chunk
is what the chunk builder found, behind the image. -/
theorem build_unsupported (hsup : t.supported = false) (s s' : σ)
    (buff : Mem) {err : ErrorCode}
    (hflush : ops.writeChunk s 0
      ((buff.write 0 (emptyImage.read 0 usizeSize)).read 0 chunkSizeBytes)
        = some (err, s')) :
    ∃ r, build ops openAt 1 (fun _ _ => 0) root t (new s buff) = some r
      ∧ r.err = .ok ∧ r.chunks.store = s' := by
  have hchunk := chunkSizeBytes_eq
  have hsize : usizeSize = 8 := rfl
  have hmode : Node.mode emptyImage usizeSize = 0 := by decide
  have hreserve : (new s buff).reserve ops usizeSize
      = some ({ err := .ok, offset := 0, length := 0 },
        { new s buff with pos := usizeSize }) := by
    rw [reserve,
      show usize ((new s buff).pos + usizeSize) = usizeSize from rfl,
      movePos_first rfl (by omega)]
    rfl
  have hloop : createLoop ops openAt chunkSizeBytes 1 [(usizeSize, root)]
      emptyImage { new s buff with pos := usizeSize }
        = some (.ok, emptyImage, { new s buff with pos := usizeSize }) := by
    unfold createLoop
    rw [if_neg (by rw [nodeSize]; omega), hmode, if_neg (by decide),
      if_neg (by decide)]
    rfl
  refine ⟨{ err := .ok, data := emptyImage, size := usizeSize
            chunks := { new s buff with
              store := s'
              built := false || decide (err = .ok)
              pos := usizeSize
              buff := buff.write 0 (emptyImage.read 0 usizeSize) } },
    ?_, rfl, rfl⟩
  unfold MetaFSBuilder.build createChunks
  rw [scanDfs_unsupported hsup]
  simp only [show (start fun _ _ => 0).currentPos = usizeSize from rfl,
    show (start fun _ _ => 0).dataSize.1 = chunkSizeBytes from rfl,
    show Mem.writeLe (start fun _ _ => 0).data 0 usizeSize usizeSize
      = emptyImage from rfl,
    hreserve, hloop, write_emptyImage, ne_eq, not_true_eq_false, if_false]
  unfold ChunkBuilder.build
  rw [show (new s buff).store = s from rfl,
    show (new s buff).chunkNum = 0 from rfl, hflush]
  rfl

/-- The fields of a file's node are those of the builder's image. -/
theorem fields_loaded {m m' : Mem} {n : Nat} {path : List Bytes} {p : Nat}
    (hn : n = usizeSize + t.extent) (heq : ∀ a, a < n → m' a = m a)
    (hp : RegularAt t path p) :
    Node.length m' p = Node.length m p
      ∧ Node.dataOffset m' p = Node.dataOffset m p := by
  obtain ⟨s, hplaced, -⟩ := hp
  have hwithin := hplaced.within
  have hsize := nodeSize_le_extent hwithin.1
  have hnode : nodeSize = 72 := rfl
  exact ⟨Mem.readLe_congr fun a _ hhi => heq a (by omega),
    Mem.readLe_congr fun a _ hhi => heq a (by omega)⟩

end Build

end MetaFSBuilder

end Distfs

/-
What is built can be read back: the image by the constructor of
`MetaFileSystem`, the files by `DataProvider::read`.

# The condition

The two sides agree at every alignment of image, files and chunks. What
can go wrong is the image itself: `set_dirent_node_offset` takes the
index of an entry as an `int`, so a directory of more than `2 ^ 31`
entries makes the builder store outside of its buffer.
-/
import Distfs.Meta.Built
import Distfs.Meta.Lookup

namespace Distfs

open SourceTree ChunkBuilder DataProvider MetaFileSystem

namespace MetaFSBuilder

/-- The bytes of a source file. -/
def fileBytes : SourceFile → Bytes
  | .notFound => []
  | .denied => []
  | .opened fd => fd.rest

section Reads

variable {σ : Type} (ops : ChunkOps σ)
  (client : UInt32 → σ → ErrorCode × σ) (heap : Nat → Mem)
  (unset : Nat → Nat)

/-- Read ranges of the flat address space one after the other. -/
def readRanges (p : ChunkProvider σ) :
    List (Nat × Nat) → Option (List (ErrorCode × Bytes) × ChunkProvider σ)
  | [] => some ([], p)
  | x :: xs =>
      match read ops client heap unset p x.1 x.2 with
      | none => none
      | some (err, bytes, p) =>
          match readRanges p xs with
          | none => none
          | some (rs, p) => some ((err, bytes) :: rs, p)

/-- Mount what was built: the image that is loaded is the one of the
builder, and reading any regular files, in any order and as often as
wanted, gives OK and their bytes. No two of their ranges meet, nor does
one meet the image. The node of a file says where its bytes are. -/
def ReadsBack (ops : ChunkOps σ) (client : UInt32 → σ → ErrorCode × σ)
    (heap : Nat → Mem) (unset : Nat → Nat) (t : SourceTree)
    (source : List Bytes → SourceFile) (r : Built σ) (fresh : Mem)
    (cacheSize : Nat) : Prop :=
  ∃ image p, MetaFileSystem.load ops client heap unset fresh
        (.new r.chunks.store cacheSize) = some (.ok image, p)
    ∧ image.read 0 r.size = r.data.read 0 r.size
    ∧ At image usizeSize t
    ∧ (∀ files : List (List Bytes × Nat),
      (∀ x ∈ files, RegularAt t x.1 x.2) →
      ∃ p', readRanges ops client heap unset p
          (files.map fun x =>
            (Node.dataOffset image x.2, Node.length image x.2))
        = some (files.map fun x => (.ok, fileBytes (source x.1)), p'))
    ∧ (∀ x y : List Bytes × Nat, RegularAt t x.1 x.2 →
      RegularAt t y.1 y.2 → x ≠ y →
      Node.dataOffset image x.2 + Node.length image x.2
          ≤ Node.dataOffset image y.2
        ∨ Node.dataOffset image y.2 + Node.length image y.2
          ≤ Node.dataOffset image x.2)
    ∧ ∀ path q, RegularAt t path q → r.size ≤ Node.dataOffset image q

end Reads

/-- The build completes with OK, and what was built reads back, whatever
the network does, what memory is handed out, and how many chunks are
cached. -/
def BuildsAndReads {σ : Type} (ops : ChunkOps σ)
    (openAt : Bytes → SourceFile) (heap : Nat → Mem) (root : Bytes)
    (t : SourceTree) (chunks : ChunkBuilder σ) : Prop :=
  ∃ turns, ∀ fuel, turns ≤ fuel →
    ∃ r, build ops openAt fuel heap root t chunks = some r ∧ r.err = .ok
      ∧ ∀ client heap' unset fresh cacheSize, 0 < cacheSize →
        ReadsBack ops client heap' unset t (sourceAt openAt root) r fresh
          cacheSize

section ReadBack

variable {σ : Type} {ops : ChunkOps σ} {ready : σ → Prop}
  {view : σ → UInt32 → Option Bytes} {room : UInt32 → Prop}
  {t : SourceTree} {source : List Bytes → SourceFile} {r : Built σ}
  (client : UInt32 → σ → ErrorCode × σ) (heap : Nat → Mem)
  (unset : Nat → Nat)

/-- The image is loaded as it was built. -/
theorem Leaves.load {chunks : UInt32 → Option Bytes}
    (hf : ops.Faithful ready view room) (h : Leaves chunks t source r)
    {p : ChunkProvider σ} (hserving : p.Serving ready view chunks)
    (fresh : Mem) :
    ∃ p', MetaFileSystem.load ops client heap unset fresh p
        = some (.ok (fresh.write 0 (r.data.read 0 r.size)), p')
      ∧ p'.Serving ready view chunks := by
  have hsize : usizeSize ≤ r.size := by
    rw [h.size]
    exact Nat.le_add_right _ _
  have hword : Covers chunks 0 (r.data.read 0 usizeSize) := by
    intro i hi
    rw [Mem.length_read] at hi
    have himage := h.image i (by rw [Mem.length_read]; omega)
    rwa [Mem.getElem?_read (by omega)] at himage ⊢
  obtain ⟨p₁, hfirst, hserving₁⟩ :=
    read_spec client heap unset hf h.whole _ _ _ hword hserving
  obtain ⟨p₂, hsecond, hserving₂⟩ :=
    read_spec client heap unset hf h.whole _ _ _ h.image hserving₁
  rw [Mem.length_read] at hfirst hsecond
  have hlen : Mem.leNat (r.data.read 0 usizeSize) = r.size := h.length
  refine ⟨p₂, ?_, hserving₂⟩
  rw [MetaFileSystem.load, hfirst]
  simp only [ne_eq, not_true_eq_false, if_false]
  rw [hlen, if_neg (Nat.not_lt.2 h.fits), hsecond]
  simp

/-- One range after the other, each with the bytes of its file. -/
theorem readRanges_spec {chunks : UInt32 → Option Bytes}
    (hf : ops.Faithful ready view room)
    (hwhole : ∀ id c, chunks id = some c → c.length = chunkSizeBytes)
    (xs : List (Nat × Bytes)) :
    ∀ p : ChunkProvider σ, p.Serving ready view chunks →
      (∀ x ∈ xs, Covers chunks x.1 x.2) →
      ∃ p', readRanges ops client heap unset p
          (xs.map fun x => (x.1, x.2.length))
        = some (xs.map fun x => (.ok, x.2), p') := by
  induction xs with
  | nil => exact fun p _ _ => ⟨p, rfl⟩
  | cons x xs ih =>
      intro p hserving hcovers
      obtain ⟨p₁, hread, hserving₁⟩ := read_spec client heap unset hf hwhole
        x.2 x.1 p (hcovers x List.mem_cons_self) hserving
      obtain ⟨p₂, hrest⟩ := ih p₁ hserving₁ fun y hy =>
        hcovers y (List.mem_cons_of_mem _ hy)
      refine ⟨p₂, ?_⟩
      rw [List.map_cons, readRanges, hread]
      simp only [hrest, List.map_cons]

/-- Different files are at different nodes. -/
theorem RegularAt.unique {path path' : List Bytes} {p : Nat}
    (h : RegularAt t path p) (h' : RegularAt t path' p) : path = path' := by
  obtain ⟨s, hplaced, -⟩ := h
  obtain ⟨s', hplaced', hs'⟩ := h'
  have hsize := nodeSize_le_extent hplaced'.within.1
  have hnode : nodeSize = 72 := rfl
  obtain ⟨rest, rfl, hrest⟩ :=
    hplaced.nested hplaced' (Nat.le_refl _) (by omega)
  rw [(hrest.of_isReg hs').1, List.append_nil]

/-- Every file opens, and no read of it fails. -/
def Opens (t : SourceTree) (source : List Bytes → SourceFile) : Prop :=
  ∀ path s, Named t path s → s.isReg = true →
    ∃ fd, source path = .opened fd ∧ ∀ c ∈ fd.script, c.Progress

/-- What opens is delivered. -/
theorem Opens.delivered (h : Opens t source) {path : List Bytes} {p : Nat}
    (hp : RegularAt t path p) :
    ChunkBuilder.delivered (source path) = some (fileBytes (source path)) := by
  obtain ⟨s, hplaced, hs⟩ := hp
  obtain ⟨fd, hfd, hscript⟩ := h path s hplaced.named hs
  rw [hfd]
  exact Transfer.readAll_of_progress chunkSizeBytes_pos fd hscript

/-- What a build leaves reads back if every file was read. -/
theorem Leaves.readsBack (hf : ops.Faithful ready view room)
    (hready : ready r.chunks.store) (hopens : Opens t source)
    (h : Leaves (view r.chunks.store) t source r) (fresh : Mem)
    {cacheSize : Nat} (hcache : 0 < cacheSize) :
    ReadsBack ops client heap unset t source r fresh cacheSize := by
  obtain ⟨p, hload, hserving⟩ := h.load client heap unset hf
    (ChunkProvider.serving_new hready (fun _ _ hc => hc) hcache) fresh
  generalize himage : fresh.write 0 (r.data.read 0 r.size) = image at hload
  have hsame : ∀ a, a < r.size → image a = r.data a := by
    intro a ha
    rw [← himage, Mem.write_inside _ (Nat.zero_le a)
      (by rwa [Mem.length_read]), Mem.getElem_read, Nat.zero_add,
      Nat.sub_zero]
  have hfields := fun path q (hq : RegularAt t path q) =>
    fields_loaded h.size hsame hq
  refine ⟨image, p, hload, Mem.read_congr fun a _ ha => hsame a (by omega),
    h.records.congr fun a _ ha _ => (hsame a (by rwa [h.size])).symm,
    fun files hfiles => ?_, fun x y hx hy hne => ?_, fun path q hq => ?_⟩
  · -- what is stored under the fields of the files' nodes
    have hfile : ∀ x ∈ files,
        Node.length image x.2 = (fileBytes (source x.1)).length
          ∧ Covers (view r.chunks.store) (Node.dataOffset image x.2)
            (fileBytes (source x.1)) := by
      intro x hx
      obtain ⟨hlen, -, hcovers⟩ := h.content x.1 x.2 _ (hfiles x hx)
        (hopens.delivered (hfiles x hx))
      obtain ⟨hlength, hoffset⟩ := hfields _ _ (hfiles x hx)
      rw [hlength, hoffset]
      exact ⟨hlen, hcovers⟩
    obtain ⟨p', hread⟩ := readRanges_spec client heap unset hf h.whole
      (files.map fun x => (Node.dataOffset image x.2, fileBytes (source x.1)))
      p hserving (fun y hy => by
        obtain ⟨x, hx, rfl⟩ := List.mem_map.1 hy
        exact (hfile x hx).2)
    have hranges : (files.map fun x =>
          (Node.dataOffset image x.2, Node.length image x.2))
        = files.map fun x =>
          (Node.dataOffset image x.2, (fileBytes (source x.1)).length) :=
      List.map_congr_left fun x hx => by rw [(hfile x hx).1]
    rw [List.map_map, List.map_map] at hread
    refine ⟨p', ?_⟩
    rw [hranges]
    exact hread
  · obtain ⟨hlength, hoffset⟩ := hfields _ _ hx
    obtain ⟨hlength', hoffset'⟩ := hfields _ _ hy
    rw [hlength, hoffset, hlength', hoffset']
    refine h.apart _ _ _ _ hx hy fun heq => hne ?_
    refine Prod.ext (RegularAt.unique hx ?_) heq
    rw [heq]
    exact hy
  · obtain ⟨-, hlo, -⟩ := h.content path q _ hq (hopens.delivered hq)
    rw [(hfields _ _ hq).2]
    exact hlo

end ReadBack

/-- If the index of an entry does not fit, the build is undefined. -/
theorem not_built_of_crowded {σ : Type} {ops : ChunkOps σ}
    {openAt : Bytes → SourceFile} {heap : Nat → Mem} {root : Bytes}
    {t : SourceTree} {chunks : ChunkBuilder σ} (hcrowded : Crowded t) :
    ¬ BuildsAndReads ops openAt heap root t chunks := by
  intro ⟨turns, h⟩
  obtain ⟨r, hbuild, -⟩ := h turns (Nat.le_refl _)
  unfold build at hbuild
  rw [scanDfs_crowded hcrowded] at hbuild
  exact absurd hbuild.symm (Option.some_ne_none r)

/-- On a static tree whose files can be read, with an empty faithful
store that has room for image and files: what is built reads back, if and
only if no directory has more than `2 ^ 31` entries. -/
theorem buildsAndReads_iff {σ : Type} (ops : ChunkOps σ) (ready : σ → Prop)
    (view : σ → UInt32 → Option Bytes) (openAt : Bytes → SourceFile)
    (heap : Nat → Mem) (root : Bytes) (t : SourceTree)
    (hstatic : Static t) (hsup : t.supported = true)
    (hopens : Opens t (sourceAt openAt root))
    (hsize : totalLen t (sourceAt openAt root) ≤ 2 ^ 32 * chunkSizeBytes)
    (hf : ops.Faithful ready view fun id =>
      id.toNat ≤ totalLen t (sourceAt openAt root) / chunkSizeBytes)
    (s : σ) (hready : ready s) (hempty : ∀ id, view s id = none)
    (buff : Mem) :
    BuildsAndReads ops openAt heap root t (new s buff) ↔ ¬ Crowded t := by
  constructor
  · exact fun h hcrowded => not_built_of_crowded hcrowded h
  · intro hcrowded
    have hscan : ∃ b off, scanDfs heap t (start heap) = some (b, off) := by
      rcases scanDfs_spec heap t (start heap)
          (show usizeSize ≤ chunkSizeBytes by decide)
        with ⟨b, hsome, -⟩ | ⟨-, hlimit | hcrowded'⟩
      · exact ⟨b, _, hsome⟩
      · have hmax : allocLimit = 2 ^ 63 - 1 := rfl
        have hpos : (start heap).currentPos = usizeSize := rfl
        have hchunk := chunkSizeBytes_eq
        rw [totalLen] at hsize
        omega
      · exact absurd hcrowded' hcrowded
    obtain ⟨b, off, hscan⟩ := hscan
    refine ⟨t.extent, fun fuel hfuel => ?_⟩
    rcases build_spec hf hsize hstatic.found hsup (Nat.le_refl _) hready
        hempty buff hscan hfuel
      with ⟨-, path, st, hnamed, hst, hunsound⟩ | ⟨r, hbuild, hready', hleaves⟩
    · obtain ⟨fd, hfd, hscript⟩ := hopens path st hnamed hst
      rw [hfd] at hunsound
      exact absurd hscript hunsound
    · exact ⟨r, hbuild, hleaves.err,
        fun client heap' unset fresh cacheSize hcache =>
          hleaves.readsBack client heap' unset hf hready' hopens fresh hcache⟩

/-- One file of two bytes, which are read one by one. -/
theorem buildsAndReads_one_file :
    BuildsAndReads MemoryStore.ops
      (fun _ => .opened { rest := [104, 105], script := [.upTo 1] })
      (fun _ _ => 0) [47, 115] (oneFile []) (new .empty fun _ => 255) :=
  (buildsAndReads_iff MemoryStore.ops MemoryStore.Ready MemoryStore.chunks
    (fun _ => .opened { rest := [104, 105], script := [.upTo 1] })
    (fun _ _ => 0) [47, 115] (oneFile []) (oneFile_static []) (by decide)
    (fun _ _ _ _ => ⟨_, rfl, by decide⟩) (by decide)
    (MemoryStore.faithful _) .empty MemoryStore.ready_empty (fun _ => rfl)
    fun _ => 255).2 (not_crowded (by decide))

-- ================================================ a directory too large

/-- `k` letters that spell the number. -/
def letters : Nat → Nat → Bytes
  | 0, _ => []
  | k + 1, n => UInt8.ofNat (97 + n % 26) :: letters k (n / 26)

/-- As many letters as wanted. -/
theorem length_letters (k : Nat) : ∀ n, (letters k n).length = k := by
  induction k with
  | zero => exact fun n => rfl
  | succ k ih =>
      intro n
      rw [letters, List.length_cons, ih]

theorem toNat_letter (n : Nat) :
    (UInt8.ofNat (97 + n % 26)).toNat = 97 + n % 26 := by
  rw [UInt8.toNat_ofNat']
  omega

/-- Letters only. -/
theorem mem_letters {k : Nat} {c : UInt8} :
    ∀ {n}, c ∈ letters k n → 97 ≤ c.toNat := by
  induction k with
  | zero =>
      intro n h
      cases h
  | succ k ih =>
      intro n h
      rw [letters, List.mem_cons] at h
      rcases h with rfl | h
      · rw [toNat_letter]
        exact Nat.le_add_right _ _
      · exact ih h

/-- Different numbers have different letters. -/
theorem letters_inj {k : Nat} :
    ∀ {n m}, n < 26 ^ k → m < 26 ^ k → letters k n = letters k m → n = m := by
  induction k with
  | zero =>
      intro n m hn hm _
      omega
  | succ k ih =>
      intro n m hn hm h
      rw [letters, letters, List.cons.injEq] at h
      obtain ⟨hlow, hhigh⟩ := h
      have hmod := congrArg UInt8.toNat hlow
      rw [toNat_letter, toNat_letter] at hmod
      rw [Nat.pow_succ] at hn hm
      have hdiv := ih (Nat.div_lt_of_lt_mul (by omega))
        (Nat.div_lt_of_lt_mul (by omega)) hhigh
      omega

/-- The entries of a directory of `n` empty files. -/
def emptyEntries (n : Nat) : List Listed :=
  (List.range n).map fun i =>
    (letters 7 i, some 0x81A4, .node (statOf 0x81A4) [] [] [])

/-- A directory of `n` empty files. -/
def emptyFiles (n : Nat) : SourceTree :=
  .node (statOf 0x41ED) [] [] (emptyEntries n)

/-- Each entry is kept: an empty file with a name of seven letters. -/
theorem keeps_of_mem_emptyEntries {n : Nat} {e : Listed}
    (h : e ∈ emptyEntries n) :
    keeps e = true ∧ e.1.length = 7 ∧ Component e.1
      ∧ e.2 = (some 0x81A4, .node (statOf 0x81A4) [] [] []) := by
  obtain ⟨i, -, rfl⟩ := List.mem_map.1 h
  have hlen := length_letters 7 i
  have hchars : ∀ c ∈ letters 7 i, 97 ≤ c.toNat := fun c hc => mem_letters hc
  refine ⟨?_, hlen, ⟨?_, ?_, ?_⟩, rfl⟩
  · have hdot : ∀ s : Bytes, s.length < 7 → letters 7 i ≠ s := by
      intro s hs heq
      rw [← heq] at hs
      omega
    simp [keeps, hdot [46] (by decide), hdot [46, 46] (by decide),
      isSupported, sIsReg]
  · intro heq
    rw [show letters 7 i = [] from heq] at hlen
    cases hlen
  · exact fun h0 => absurd (hchars 0 h0) (by decide)
  · exact fun h47 => absurd (hchars 47 h47) (by decide)

/-- The directory of empty files is static. -/
theorem emptyFiles_static {n : Nat} (hn : n ≤ 26 ^ 7) :
    Static (emptyFiles n) := by
  refine .node _ _ _ _ (fun e he => ?_) ?_ (fun e he => ?_) (fun e he => ?_)
  · exact (keeps_of_mem_emptyEntries he).2.2.1
  · rw [emptyEntries, List.map_map]
    refine List.Nodup.map_on (fun i hi j hj h => ?_) List.nodup_range
    have hi' := List.mem_range.1 hi
    have hj' := List.mem_range.1 hj
    exact letters_inj (by omega) (by omega) h
  · rw [(keeps_of_mem_emptyEntries he).2.2.2]
    rfl
  · rw [(keeps_of_mem_emptyEntries he).2.2.2]
    exact .node _ _ _ _ (by decide) (by decide) (by decide)
      fun e he => absurd he List.not_mem_nil

theorem length_kept_emptyFiles (n : Nat) :
    (emptyFiles n).kept.length = n := by
  have hdir : sIsDir (statOf 0x41ED).mode.toNat = true := by decide
  rw [emptyFiles, kept, if_pos hdir, (sortedEntries_perm _).length_eq,
    List.length_map,
    List.filter_eq_self.2 fun e he => (keeps_of_mem_emptyEntries he).1,
    emptyEntries, List.length_map, List.length_range]

/-- The image of the directory, when its files are empty. -/
theorem totalLen_emptyFiles (n : Nat) (fd : SourceFile)
    (hfd : sourceLen fd = 0) :
    totalLen (emptyFiles n) (fun _ => fd) = 80 + 96 * n := by
  have hextents : ∀ es : List Listed, (∀ e ∈ es, e ∈ emptyEntries n) →
      extents es = 96 * es.length
        ∧ dataLens (sizeAt fun _ => fd) [] es = 0 := by
    intro es hes
    induction es with
    | nil => exact ⟨rfl, rfl⟩
    | cons e es ih =>
        obtain ⟨hkeep, hlen, -, he⟩ :=
          keeps_of_mem_emptyEntries (hes e List.mem_cons_self)
        obtain ⟨hext, hdata⟩ :=
          ih fun e he => hes e (List.mem_cons_of_mem _ he)
        rw [extents, dataLens, hext, hdata, if_pos hkeep, if_pos hkeep, hlen,
          he, List.length_cons]
        refine ⟨?_, hfd⟩
        show 7 + 1 + 16 + 72 + 96 * es.length = _
        omega
  obtain ⟨hext, hdata⟩ := hextents (emptyEntries n) fun e he => he
  have hlen : (emptyEntries n).length = n := by
    rw [emptyEntries, List.length_map, List.length_range]
  have hsum : totalLen (emptyFiles n) (fun _ => fd)
      = 8 + (72 + 0 + extents (emptyEntries n))
        + dataLens (sizeAt fun _ => fd) [] (emptyEntries n) := rfl
  rw [hsum, hext, hdata, hlen]
  omega

theorem emptyFiles_supported (n : Nat) : (emptyFiles n).supported = true :=
  supported_of_isDir (by decide)

/-- From `2 ^ 31 + 1` files on it is crowded. -/
theorem emptyFiles_crowded {n : Nat} (hn : 2 ^ 31 < n) :
    Crowded (emptyFiles n) := by
  refine ⟨[], emptyFiles n, .here _ (emptyFiles_supported n), ?_⟩
  rw [length_kept_emptyFiles]
  exact hn

/-- Its image has room in the chunks that an id can name. -/
theorem totalLen_emptyFiles_le {n : Nat} (hn : n ≤ 26 ^ 7) (root : Bytes) :
    totalLen (emptyFiles n)
        (sourceAt (fun _ => .opened { rest := [], script := [] }) root)
      ≤ 2 ^ 32 * chunkSizeBytes := by
  have hlen := totalLen_emptyFiles n (.opened { rest := [], script := [] }) rfl
  have hchunk := chunkSizeBytes_eq
  show totalLen (emptyFiles n)
    (fun _ => .opened { rest := [], script := [] }) ≤ _
  omega

/-- A directory of `2 ^ 31 + 1` empty files is not built, though its image
is small enough. -/
theorem emptyFiles_not_built :
    Static (emptyFiles (2 ^ 31 + 1)) ∧ (emptyFiles (2 ^ 31 + 1)).supported
      ∧ Opens (emptyFiles (2 ^ 31 + 1))
        (sourceAt (fun _ => .opened { rest := [], script := [] }) [47, 115])
      ∧ totalLen (emptyFiles (2 ^ 31 + 1))
          (sourceAt (fun _ => .opened { rest := [], script := [] })
            [47, 115])
        ≤ 2 ^ 32 * chunkSizeBytes
      ∧ ¬ BuildsAndReads MemoryStore.ops
        (fun _ => .opened { rest := [], script := [] }) (fun _ _ => 0)
        [47, 115] (emptyFiles (2 ^ 31 + 1)) (new .empty fun _ => 0) :=
  ⟨emptyFiles_static (by decide), emptyFiles_supported _,
    fun _ _ _ _ => ⟨_, rfl, fun c hc => absurd hc List.not_mem_nil⟩,
    totalLen_emptyFiles_le (by decide) _,
    not_built_of_crowded (emptyFiles_crowded (by decide))⟩

end MetaFSBuilder

end Distfs

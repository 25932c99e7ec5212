/-
A tree that is built, loaded and mounted answers like the tree.

The image that `build` leaves in the chunks says all there is to say
(`carries_of_build`), the constructor of `MetaFileSystem` loads it, and
`DataProvider::read` delivers what the chunks hold (`supplies_kept`). So
the callbacks of the mounted file system answer any session as the
source tree would, whatever is cached.

The store has to keep the chunks for that. It is any one that keeps those
that fit; all that the build writes are to fit.
-/
import Distfs.Data.FetchedRead
import Distfs.Fuse.Mounted
import Distfs.Network.DistfsMetadata

namespace Distfs

open SourceTree ChunkBuilder DataProvider MetaFSBuilder

namespace Fuse

open TreeFs

/-- What the image has of the files: what could be read when they were
added, nothing if a file could not be opened. -/
def contents (source : List Bytes → SourceFile) (path : List Bytes) : Bytes :=
  (delivered (source path)).getD []

section Build

variable {σ : Type} {ops : ChunkOps σ} {ready : σ → Prop}
  {view : σ → UInt32 → Option Bytes} {room : UInt32 → Prop}
  {openAt : Bytes → SourceFile} {heap : Nat → Mem} {root : Bytes}
  {t : SourceTree} {fuel : Nat} {chunks : ChunkBuilder σ} {r : Built σ}

/-- Every image with the bytes of a build carries the tree. -/
theorem carries_of_build {held : UInt32 → Option Bytes}
    (hstays : Stays t) (hsup : t.supported = true)
    (hbuild : build ops openAt fuel heap root t chunks = some r)
    (h : Leaves held t (sourceAt openAt root) r) {image : Mem}
    (himage : image.read 0 r.size = r.data.read 0 r.size) :
    Carries image held t (contents (sourceAt openAt root)) := by
  have hsame : ∀ a, a < r.size → image a = r.data a := fun a ha =>
    Mem.eq_of_read_eq himage (Nat.zero_le a) (by omega)
  refine ⟨h.records.congr fun a _ ha _ => (hsame a (by rwa [h.size])).symm,
    fun path p s hplaced => records_of_build hsup hstays hbuild himage hplaced,
    fun path p hp => ?_⟩
  obtain ⟨hlength, hoffset⟩ := fields_loaded h.size hsame hp
  have haddressed := h.addressed path p hp
  rw [hlength, hoffset]
  unfold contents
  cases hdelivered : delivered (sourceAt openAt root path) with
  | none =>
      obtain ⟨hoff, hlen⟩ := h.missing path p hp hdelivered
      exact ⟨hlen, fun i hi => absurd hi (Nat.not_lt_zero i), haddressed⟩
  | some content =>
      obtain ⟨hlen, -, hcovers⟩ := h.content path p content hp hdelivered
      exact ⟨hlen, hcovers, haddressed⟩

/-- A store that has the chunks brings them. -/
theorem brings_kept {fit : Bytes → Prop}
    (hk : ops.Keeps fit ready view room) {held : UInt32 → Option Bytes}
    (hwhole : ∀ id c, held id = some c → c.length = chunkSizeBytes)
    (client : UInt32 → σ → ErrorCode × σ) :
    ChunkProvider.Brings False ops client
      (fun s => ready s ∧ view s = held) held := by
  refine ⟨hwhole, fun s id c hs hc => ?_⟩
  obtain ⟨hready, hview⟩ := hs
  obtain ⟨s', hread, hready', hview'⟩ :=
    hk.read s id c hready (by rw [hview]; exact hc)
  refine ⟨.ok c, s', ?_, ⟨hready', hview'.trans hview⟩, .inl rfl⟩
  simp only [ChunkProvider.fetch, hread]

/-- A data provider over it delivers them. -/
theorem supplies_kept {fit : Bytes → Prop}
    (hk : ops.Keeps fit ready view room) {held : UInt32 → Option Bytes}
    (hwhole : ∀ id c, held id = some c → c.length = chunkSizeBytes)
    (client : UInt32 → σ → ErrorCode × σ) (heap : Nat → Mem)
    (unset : Nat → Nat) :
    Supplies False (DataProvider.read ops client heap unset)
      (ChunkProvider.Caching (fun s => ready s ∧ view s = held) held) held :=
  fun _ _ _ hp hcovers =>
    (brings_kept hk hwhole client).read heap unset hcovers hp

-- ============================================================ mounting

variable {τ : Type} {dops : ChunkOps τ} {fails : Prop}
  {held : UInt32 → Option Bytes}
  {client : UInt32 → τ → ErrorCode × τ} {heap' : Nat → Mem}
  {unset : Nat → Nat} {inv : ChunkProvider τ → Prop} {p : ChunkProvider τ}

/-- The image is loaded as it was built, unless the data provider
fails. -/
theorem load_supplied
    (hdp : Supplies fails (DataProvider.read dops client heap' unset) inv
      held) (h : Leaves held t (sourceAt openAt root) r) (hp : inv p)
    (fresh : Mem) :
    ∃ x p', MetaFileSystem.load dops client heap' unset fresh p
        = some (x, p') ∧ inv p'
      ∧ (x = .ok (fresh.write 0 (r.data.read 0 r.size))
        ∨ fails ∧ ∃ text, x = .error text) := by
  have hsize : usizeSize ≤ r.size := by
    rw [h.size]
    exact Nat.le_add_right _ _
  have hword : Covers held 0 (r.data.read 0 usizeSize) := by
    intro i hi
    rw [Mem.length_read] at hi
    have himage := h.image i (by rw [Mem.length_read]; omega)
    rwa [Mem.getElem?_read (by omega)] at himage ⊢
  have hlen : Mem.leNat (r.data.read 0 usizeSize) = r.size := h.length
  obtain ⟨err₁, out₁, p₁, hfirst, hp₁, hout₁⟩ := hdp p 0 _ hp hword
  obtain ⟨err₂, out₂, p₂, hsecond, hp₂, hout₂⟩ := hdp p₁ 0 _ hp₁ h.image
  rw [Mem.length_read] at hfirst hsecond
  rw [MetaFileSystem.load, hfirst]
  simp only
  rcases hout₁ with ⟨rfl, rfl⟩ | ⟨hfails, herr⟩
  · rw [if_neg (fun herr => herr rfl), hlen, if_neg (Nat.not_lt.2 h.fits),
      hsecond]
    simp only
    rcases hout₂ with ⟨rfl, rfl⟩ | ⟨hfails, herr⟩
    · rw [if_neg fun herr => herr rfl]
      exact ⟨_, p₂, rfl, hp₂, .inl rfl⟩
    · rw [if_pos herr]
      exact ⟨_, p₂, rfl, hp₂, .inr ⟨hfails, _, rfl⟩⟩
  · rw [if_pos herr]
    exact ⟨_, p₁, rfl, hp₁, .inr ⟨hfails, _, rfl⟩⟩

/-- Over a data provider that has what a build left, the callbacks answer
every session of admitted requests as the tree would. -/
theorem session_supplied (hm : Mountable t)
    (hbuild : build ops openAt fuel heap root t chunks = some r)
    (h : Leaves held t (sourceAt openAt root) r) {dp : ReadAt τ}
    {inv : τ → Prop} (hdp : Supplies fails dp inv held) {image : Mem}
    (himage : image.read 0 r.size = r.data.read 0 r.size) {p : τ}
    (hp : inv p) (buff : Mem) (qs : List FsRequest)
    (hqs : Session.Admitted (Allowed t (contents (sourceAt openAt root)))
      (answer t (contents (sourceAt openAt root))) [] qs) :
    ∃ rs mount, Session.session (serve dp image buff)
        { handles := [], provider := p } qs = some (rs, mount)
      ∧ Session.Answers (Told fails)
        (answer t (contents (sourceAt openAt root))) [] qs rs := by
  have hstays : Stays t := fun path s hnamed e he =>
    (hm.static.found path s hnamed e he).2
  have hcarries := carries_of_build hstays hm.supported hbuild h himage
  have hsim : Sim t inv { handles := [], provider := p } [] :=
    ⟨hp, rfl, fun i fh path hfh _ => by cases hfh⟩
  have hrefines : Session.Refines (serve dp image buff)
      (answer t (contents (sourceAt openAt root))) (Sim t inv)
      (Allowed t (contents (sourceAt openAt root))) (Told fails) :=
    serve_answers hcarries hm hdp
  exact hrefines.session qs _ [] hsim hqs

theorem read_loaded (fresh : Mem) :
    (fresh.write 0 (r.data.read 0 r.size)).read 0 r.size
      = r.data.read 0 r.size := by
  have hself := Mem.read_write_self fresh 0 (r.data.read 0 r.size)
  rwa [Mem.length_read] at hself

end Build

/-- Only the answer of the tree will do where nothing fails. -/
theorem eq_of_told {q : FsRequest} {r r' : FsReply}
    (h : Told False q r r') : r = r' :=
  h.elim id fun hfails => hfails.1.elim

/-- What a completed build whose chunks fit leaves of a tree that an image
can hold: the callbacks of the mounted file system answer every session of
admitted requests as the tree would. -/
theorem mounted_answers {σ : Type} (ops : ChunkOps σ) (fit : Bytes → Prop)
    (ready : σ → Prop) (view : σ → UInt32 → Option Bytes)
    (openAt : Bytes → SourceFile) (heap : Nat → Mem) (root : Bytes)
    (t : SourceTree) (hm : Mountable t)
    (htotal : totalLen t (sourceAt openAt root) ≤ 2 ^ 32 * chunkSizeBytes)
    (hk : ops.Keeps fit ready view fun id =>
      id.toNat ≤ totalLen t (sourceAt openAt root) / chunkSizeBytes)
    (s : σ) (hready : ready s) (hempty : ∀ id, view s id = none)
    (buff : Mem) (fuel : Nat) (r : Built σ)
    (hbuild : build ops openAt fuel heap root t (new s buff) = some r)
    (hfits : ∀ b ∈ chunksWritten ops openAt fuel heap root t s buff, fit b)
    (client : UInt32 → σ → ErrorCode × σ) (heap' : Nat → Mem)
    (unset : Nat → Nat) (fresh : Mem) (cacheSize : Nat)
    (hcache : 0 < cacheSize) :
    ∃ image p, MetaFileSystem.load ops client heap' unset fresh
        (.new r.chunks.store cacheSize) = some (.ok image, p)
      ∧ ∀ (buff' : Mem) (qs : List FsRequest),
        Session.Admitted (Allowed t (contents (sourceAt openAt root)))
          (answer t (contents (sourceAt openAt root))) [] qs →
        ∃ mount, Session.session
            (serve (DataProvider.read ops client heap' unset) image buff')
            { handles := [], provider := p } qs
          = some (Session.replies
            (answer t (contents (sourceAt openAt root))) [] qs, mount) := by
  obtain ⟨hready', hleaves⟩ := leaves_of_kept hk hm.static.found
    hm.supported hready hempty hbuild hfits htotal (Nat.le_refl _)
  have hdp := supplies_kept hk hleaves.whole client heap' unset
  obtain ⟨x, p, hload, hp, hx⟩ := load_supplied hdp hleaves
    (ChunkProvider.caching_new ⟨hready', rfl⟩ hcache) fresh
  rcases hx with rfl | ⟨hfails, -⟩
  · refine ⟨_, p, hload, fun buff' qs hqs => ?_⟩
    obtain ⟨rs, mount, hrun, hanswers⟩ := session_supplied hm hbuild hleaves
      hdp (read_loaded fresh) hp buff' qs hqs
    rw [hanswers.eq_replies fun _ _ _ => eq_of_told] at hrun
    exact ⟨mount, hrun⟩
  · exact hfails.elim

/-- One empty file, and the directory it is in. -/
theorem mountable_one_file : Mountable (MetaFileSystem.oneFile []) := by
  have hzero : FitsInt64 0 := by decide
  have hnsec : (0 : Int) ≤ 0 ∧ (0 : Int) < 1000000000 := by decide
  have hnow : (0 : Int) ≤ 0 ∧ (0 : Int) ≤ 0 := by decide
  have hfits : ∀ mode, NodeFits (MetaFileSystem.statOf mode) [] [] :=
    fun mode => ⟨⟨hzero, hzero, hnsec, hnsec, hzero, hzero⟩, hnow, by decide,
      by decide, by decide, by decide, by decide, by decide, by decide⟩
  have hnodes : ∀ path s, Named (MetaFileSystem.oneFile []) path s →
      s = MetaFileSystem.oneFile []
        ∨ s = .node (MetaFileSystem.statOf 0x81A4) [] [] [] := by
    intro path s hnamed
    cases hnamed with
    | here _ _ => exact .inl rfl
    | entry _ e path _ listed rest =>
        rw [MetaFileSystem.oneFile_kept, List.mem_singleton] at listed
        subst listed
        cases rest with
        | here _ _ => exact .inr rfl
        | entry _ e path _ listed rest => cases listed
  refine ⟨MetaFileSystem.oneFile_static [], by decide, fun path s hnamed => ?_,
    fun path st xattrs target entries hnamed => ?_⟩
  · rcases hnodes path s hnamed with rfl | rfl
    · rw [MetaFileSystem.oneFile_kept]
      exact ⟨by decide, fun _ => rfl⟩
    · exact ⟨by decide, fun _ => rfl⟩
  · rcases hnodes path _ hnamed with h | h
    · unfold MetaFileSystem.oneFile at h
      cases h
      exact hfits _
    · cases h
      exact hfits _

/-- The file `f` of two bytes is built into a compressed store; it is
listed, opened, and read from its second byte on. -/
theorem mounted_second_byte :
    ∃ r image p mount,
      build (CompressedStore.ops .runs fun _ => {})
          (fun _ => StoreMetadata.twoBytes) 200 (fun _ _ => 0) [115]
          (MetaFileSystem.oneFile []) (new (.new 1, 0) fun _ => 0) = some r
        ∧ MetaFileSystem.load (CompressedStore.ops .runs fun _ => {})
          (fun _ s => (.notFound, s)) (fun _ _ => 0) (fun _ => 0)
          (fun _ => 0) (.new r.chunks.store 1) = some (.ok image, p)
        ∧ Session.session (serve (DataProvider.read
            (CompressedStore.ops .runs fun _ => {})
            (fun _ s => (.notFound, s)) (fun _ _ => 0) fun _ => 0) image
            fun _ => 0) { handles := [], provider := p }
            [.readdir [] 0 fun _ _ => true, .openFile [[102]] 0, .read 0 4 1]
          = some ([.entries [{ name := [102]
                               stat := (MetaFileSystem.statOf 0x81A4).reply
                               next := 1 }],
              .handle 0, .bytes [105]], mount) := by
  obtain ⟨r, hbuild, hfits⟩ := StoreMetadata.build_two_bytes
  have hdelivered : contents (sourceAt (fun _ => StoreMetadata.twoBytes)
      [115]) = fun _ => [104, 105] := by
    funext path
    have hread := Transfer.readAll_of_progress chunkSizeBytes_pos
      { rest := [104, 105], script := [.upTo 1] } (by decide)
    exact congrArg (Option.getD · []) hread
  have hlen : totalLen (MetaFileSystem.oneFile [])
      (sourceAt (fun _ => StoreMetadata.twoBytes) [115]) / chunkSizeBytes
        = 0 := by decide
  obtain ⟨image, p, hload, hanswers⟩ := mounted_answers
    (CompressedStore.ops .runs fun _ => {})
    (fun b => Lz4.runs.Fits b chunkSizeBytes) (CompressedStore.Ready .runs 0)
    (CompressedStore.view .runs) (fun _ => StoreMetadata.twoBytes)
    (fun _ _ => 0) [115] (MetaFileSystem.oneFile []) mountable_one_file
    (by decide)
    (by rw [hlen]; exact CompressedStore.keeps Lz4.runs_documented
          (fun _ => ⟨rfl, rfl, rfl, by simp⟩) 0)
    (.new 1, 0) (CompressedStore.ready_of_isEmpty
      (ChunkStore.isEmpty_new Nat.one_pos) Nat.one_pos 0)
    (fun _ => rfl) (fun _ => 0) 200 r hbuild hfits
    (fun _ s => (.notFound, s)) (fun _ _ => 0) (fun _ => 0) (fun _ => 0) 1
    (by decide)
  obtain ⟨mount, hsession⟩ := hanswers (fun _ => 0)
    [.readdir [] 0 fun _ _ => true, .openFile [[102]] 0, .read 0 4 1] (by
      rw [hdelivered]
      refine ⟨⟨by decide, fun s _ => Nat.zero_le _⟩,
        show ∀ c ∈ [[102]], Component c by decide,
        ⟨by decide, fun path hpath => ?_⟩, trivial⟩
      exact ⟨.inl (show 1 ≤ 2 by decide),
        show min (2 - 1) 4 < 2 ^ 31 by decide⟩)
  refine ⟨r, image, p, mount, hbuild, hload, hsession.trans ?_⟩
  rw [hdelivered]
  rfl

end Fuse

end Distfs

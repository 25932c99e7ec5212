/-
An entry that vanishes between the listing of its directory and its own
visit leaves the offset zero behind.

# What is followed

`create_chunks` and `get_dir` take the offset of a directory entry for
that of a node. `Reaches` closes this over the image: the place of the
root, and whatever the entries of a directory say. `NodeAt` says that a
node was written there.

# What happens

A visit that finds nothing returns zero, and the loop of `scan_dfs`
enters it like every other offset. No node is at zero, where the length
of the image is; so all that is reached is a node exactly if nothing
vanishes (`reaches_node`, `reaches_zero`). In that case the queue loop
only ever takes nodes, whatever the chunk builder answers, and writes to
slack only (`visits_nodes`).
-/
import Distfs.Meta.Built
import Distfs.Meta.Lookup
import Distfs.Meta.Visits

namespace Distfs

open SourceTree

/-- Nothing that was listed is gone, or of another kind, when it is
visited. -/
def SourceTree.Stays (t : SourceTree) : Prop :=
  ∀ path s, Named t path s → ∀ e ∈ s.kept, e.2.supported = true

namespace MetaFSBuilder

/-- The positions that are taken for nodes: that of the root, and those
that the entries of a directory name. -/
inductive Reaches (m : Mem) : Nat → Prop where
  | root : Reaches m usizeSize
  | entry (p i : Nat) (reached : Reaches m p)
      (isDir : sIsDir (Node.mode m p) = true) (inside : i < Node.length m p) :
      Reaches m (Entry.dataOffset m (Node.dataOffset m p) i)

/-- The visit of the tree wrote a node at `p`, with its records. -/
def NodeAt (t : SourceTree) (m : Mem) (p : Nat) : Prop :=
  ∃ path s, Placed usizeSize t path p s ∧ At m p s

/-- The builder when `create_chunks` is called: the length of the image
is stored. -/
def measured (b : MetaFSBuilder) : MetaFSBuilder :=
  { b with data := b.data.writeLe 0 usizeSize b.currentPos }

/-- Nothing but slack has changed. -/
def SlackOnly (t : SourceTree) (m m' : Mem) : Prop :=
  ∀ a, ¬ Slack usizeSize t a → m' a = m a

variable {t s : SourceTree} {m m' : Mem} {path : List Bytes} {p : Nat}

-- ======================================================== the entries

theorem SlackOnly.at (h : SlackOnly t m m') (hat : At m usizeSize t) :
    At m' usizeSize t :=
  hat.congr fun a _ _ ha => (h a ha).symm

/-- An entry of a node that was written for a directory. -/
theorem dataOffset_of_placed (hat : At m usizeSize t)
    (hplaced : Placed usizeSize t path p s)
    (hdir : sIsDir (Node.mode m p) = true) {i : Nat}
    (hi : i < Node.length m p) :
    ∃ e, s.kept[i]? = some e
      ∧ Entry.dataOffset m (Node.dataOffset m p) i
        = if e.2.supported then childPos p s.attrs s.kept i else 0 := by
  have hat' := hat.placed hplaced
  have hkind := (hat'.kind hplaced.within.1).1
  obtain ⟨⟨mode, hrecords⟩, -⟩ := hat'.records (hkind ▸ hdir)
  have hlength := hrecords.node.length
  rw [List.length_map] at hlength
  have he := List.getElem?_eq_getElem (hlength ▸ hi)
  refine ⟨_, he, ?_⟩
  rw [hrecords.node.dataOffset]
  exact hrecords.child i _ he

/-- Where nothing vanishes, it names a node. -/
theorem node_of_entry (hat : At m usizeSize t) (hstays : Stays t)
    (hplaced : Placed usizeSize t path p s)
    (hdir : sIsDir (Node.mode m p) = true) {i : Nat}
    (hi : i < Node.length m p) :
    ∃ path' s', Placed usizeSize t path'
      (Entry.dataOffset m (Node.dataOffset m p) i) s' := by
  obtain ⟨e, he, hoffset⟩ := dataOffset_of_placed hat hplaced hdir hi
  have hsup := hstays path s hplaced.named e (List.mem_of_getElem? he)
  rw [hoffset, if_pos hsup]
  exact ⟨_, _, hplaced.append (placed_cons_iff.2
    ⟨i, e, he, rfl, .here _ _ hsup⟩)⟩

/-- Where nothing vanishes, only nodes are reached. -/
theorem reaches_node (hat : At m usizeSize t) (hsup : t.supported = true)
    (hstays : Stays t) (h : Reaches m p) : NodeAt t m p := by
  have hplaced : ∃ path s, Placed usizeSize t path p s := by
    induction h with
    | root => exact ⟨[], t, .here usizeSize t hsup⟩
    | entry p i reached isDir inside ih =>
        obtain ⟨path, s, hplaced⟩ := ih
        exact node_of_entry hat hstays hplaced isDir inside
  obtain ⟨path, s, hplaced⟩ := hplaced
  exact ⟨path, s, hplaced, hat.placed hplaced⟩

/-- What the entries of a node name is reached from it. -/
theorem reaches_kept {off i : Nat} {e : Bytes × SourceTree} (hat : At m off s)
    (hreached : Reaches m off) (hsup : s.supported = true)
    (he : s.kept[i]? = some e) :
    Reaches m
      (if e.2.supported then childPos off s.attrs s.kept i else 0) := by
  have hdir := isDir_of_kept (List.mem_of_getElem? he)
  obtain ⟨⟨mode, hrecords⟩, -⟩ := hat.records hdir
  have hlength := hrecords.node.length
  rw [List.length_map] at hlength
  have hlt : i < Node.length m off := by
    rw [hlength]
    exact (List.getElem?_eq_some_iff.1 he).1
  have hentry := Reaches.entry off i hreached ((hat.kind hsup).1.trans hdir)
    hlt
  rw [hrecords.node.dataOffset, hrecords.child i e he] at hentry
  exact hentry

/-- Every node is reached. -/
theorem reaches_of_placed {off : Nat} (hat : At m off t)
    (hreached : Reaches m off) (hplaced : Placed off t path p s) :
    Reaches m p := by
  induction path generalizing off t with
  | nil =>
      obtain ⟨-, rfl, -⟩ := placed_nil_iff.1 hplaced
      exact hreached
  | cons c path ih =>
      obtain ⟨i, e, he, -, hrest⟩ := placed_cons_iff.1 hplaced
      have hdir := isDir_of_kept (List.mem_of_getElem? he)
      have hchild := reaches_kept hat hreached hplaced.root he
      rw [if_pos hrest.root] at hchild
      exact ih ((hat.records hdir).2 i e he) hchild hrest

/-- Where something vanishes, the length of the image is reached. -/
theorem reaches_zero (hat : At m usizeSize t) (hvanishes : ¬ Stays t) :
    Reaches m 0 := by
  simp only [Stays, not_forall] at hvanishes
  obtain ⟨path, s, hnamed, e, he, hgone⟩ := hvanishes
  obtain ⟨p, hplaced⟩ := hnamed.placed usizeSize
  obtain ⟨i, hi⟩ := List.mem_iff_getElem?.1 he
  have hzero := reaches_kept (hat.placed hplaced)
    (reaches_of_placed hat .root hplaced) hplaced.within.1 hi
  rw [if_neg hgone] at hzero
  exact hzero

/-- No node is there. -/
theorem not_nodeAt_zero : ¬ NodeAt t m 0 := by
  rintro ⟨path, s, hplaced, -⟩
  have hlo : usizeSize ≤ 0 := hplaced.within.2.1
  exact absurd hlo (by decide)

-- ====================================================== the queue loop

/-- What a directory is queued with are the offsets of its entries. -/
theorem mem_queueEntries {size dirents : Nat} {parent : Bytes} (k : Nat) :
    ∀ (i : Nat) (q : List (Nat × Bytes)),
      queueEntries m size dirents parent k i = some q → ∀ x ∈ q,
      ∃ j, j < i + k ∧ x.1 = Entry.dataOffset m dirents j := by
  induction k with
  | zero =>
      intro i q h x hx
      rw [queueEntries, Option.some.injEq] at h
      subst h
      cases hx
  | succ k ih =>
      intro i q h x hx
      unfold queueEntries at h
      split at h
      · split at h
        · cases h
        · split at h
          · cases h
          · next q' hrest =>
            cases h
            rcases List.mem_cons.1 hx with rfl | hx
            · exact ⟨i, by omega, rfl⟩
            · obtain ⟨j, hj, heq⟩ := ih (i + 1) q' hrest x hx
              exact ⟨j, by omega, heq⟩
      · cases h

/-- The turn of a regular file writes to slack. -/
theorem SlackOnly.answered (h : SlackOnly t m m')
    (hplaced : Placed usizeSize t path p s) (hreg : s.isReg = true)
    (reply : Reply) : SlackOnly t m (answered m' p reply) := by
  intro a ha
  have hout : a < p + 56 ∨ p + 72 ≤ a := by
    by_contra hin
    rw [not_or, Nat.not_lt, Nat.not_le] at hin
    exact ha ⟨path, p, s, hplaced, hreg, hin⟩
  rw [← h a ha, MetaFSBuilder.answered]
  split
  · exact setFile_outside hout
  · exact setFile_outside hout

section Loop

variable {σ : Type} {ops : ChunkOps σ} {openAt : Bytes → SourceFile}
  {size : Nat}

/-- Where nothing vanishes, the loop takes nodes only, and writes to slack
only. -/
theorem visits_nodes (hat : At m usizeSize t) (hstays : Stays t)
    (fuel : Nat) :
    ∀ (q : List (Nat × Bytes)) (m₁ m₂ : Mem) (b b' : ChunkBuilder σ)
      (vs : List Visited) (err : ErrorCode),
      visits ops openAt size fuel q m₁ b = some (vs, err, m₂, b') →
      (∀ x ∈ q, ∃ path s, Placed usizeSize t path x.1 s) →
      SlackOnly t m m₁ →
      (∀ v ∈ vs, ∃ path s, Placed usizeSize t path v.pos s)
        ∧ SlackOnly t m m₂ := by
  induction fuel with
  | zero =>
      intro q m₁ m₂ b b' vs err h _ hslack
      cases q with
      | nil =>
          cases h
          exact ⟨fun v hv => (by cases hv), hslack⟩
      | cons x q => cases h
  | succ fuel ih =>
      intro q m₁ m₂ b b' vs err h hq hslack
      cases q with
      | nil =>
          cases h
          exact ⟨fun v hv => (by cases hv), hslack⟩
      | cons x q =>
          obtain ⟨n, parent⟩ := x
          have hq' : ∀ x ∈ q, ∃ path s, Placed usizeSize t path x.1 s :=
            fun x hx => hq x (List.mem_cons_of_mem _ hx)
          obtain ⟨path, s, hplaced⟩ :
              ∃ path s, Placed usizeSize t path n s :=
            hq _ List.mem_cons_self
          have hat' := hslack.at hat
          obtain ⟨hisDir, hisReg⟩ :=
            (hat'.placed hplaced).kind hplaced.within.1
          have hin := fits_of_visits h
          cases hreg : sIsReg (Node.mode m₁ n) with
          | true =>
              obtain ⟨reply, b₁, -, hturn⟩ := (visits_reg hin hreg).1 h
              have hslack' := hslack.answered hplaced (hisReg ▸ hreg) reply
              rcases hturn with ⟨-, us, rfl, hrest⟩ | ⟨-, rfl, -, rfl, -⟩
              · obtain ⟨hus, hend⟩ :=
                  ih q _ m₂ b₁ b' us err hrest hq' hslack'
                exact ⟨List.forall_mem_cons.2 ⟨⟨path, s, hplaced⟩, hus⟩,
                  hend⟩
              · exact ⟨List.forall_mem_singleton.2 ⟨path, s, hplaced⟩,
                  hslack'⟩
          | false =>
              obtain ⟨us, q', hqueue, rfl, hrest⟩ :=
                (visits_other hin hreg).1 h
              have hq'' : ∀ x ∈ q',
                  ∃ path s, Placed usizeSize t path x.1 s := by
                unfold queueAfter at hqueue
                split at hqueue
                · next hdir =>
                  obtain ⟨children, hchildren, rfl⟩ :=
                    Option.map_eq_some_iff.1 hqueue
                  intro x hx
                  rcases List.mem_append.1 hx with hx | hx
                  · exact hq' x hx
                  · obtain ⟨j, hj, heq⟩ :=
                      mem_queueEntries _ 0 children hchildren x hx
                    rw [heq]
                    exact node_of_entry hat' hstays hplaced hdir (by omega)
                · cases hqueue
                  exact hq'
              obtain ⟨hus, hend⟩ :=
                ih q' m₁ m₂ b b' us err hrest hq'' hslack
              exact ⟨List.forall_mem_cons.2 ⟨⟨path, s, hplaced⟩, hus⟩, hend⟩

variable {b : MetaFSBuilder} {fuel : Nat} {root : Bytes}
  {chunks chunks' : ChunkBuilder σ} {err : ErrorCode}

/-- `create_chunks` hands back the image of before, or that of its loop. -/
theorem image_of_createChunks
    (h : createChunks ops openAt fuel b root chunks
      = some (err, m, chunks')) :
    m = b.data ∨ ∃ c c' vs err',
      visits ops openAt b.dataSize.1 fuel [(usizeSize, root)] b.data c
        = some (vs, err', m, c') := by
  unfold createChunks at h
  split at h
  · cases h
  · next reply c hreserve =>
    split at h
    · cases h
      exact .inl rfl
    · rw [createLoop_eq_visits] at h
      split at h
      · cases h
      · next err' m' c' hloop =>
        right
        obtain ⟨⟨vs, r⟩, hvisits, rfl⟩ := Option.map_eq_some_iff.1 hloop
        refine ⟨c, c', vs, err', ?_⟩
        split at h
        · cases h
          exact hvisits
        · split at h
          · cases h
          · cases h
            exact hvisits

end Loop

-- ===================================================== the whole image

/-- The image that the scan left in `b` holds together: all positions
that are taken for nodes are the starts of nodes, before `create_chunks`,
in each of its turns, and in `get_dir` after it; and `create_chunks`
changes only `data_offset` and `length` of regular files. -/
structure Intact (t : SourceTree) (b : MetaFSBuilder) : Prop where
  reached : ∀ p, Reaches b.data p → NodeAt t b.data p
  taken : ∀ {σ : Type} (ops : ChunkOps σ) (openAt : Bytes → SourceFile)
    (fuel : Nat) (root : Bytes) (chunks chunks' : ChunkBuilder σ)
    (vs : List Visited) (err : ErrorCode) (m : Mem),
    visits ops openAt b.dataSize.1 fuel [(usizeSize, root)] b.data chunks
      = some (vs, err, m, chunks') →
    ∀ v ∈ vs, NodeAt t b.data v.pos
  after : ∀ {σ : Type} (ops : ChunkOps σ) (openAt : Bytes → SourceFile)
    (fuel : Nat) (root : Bytes) (chunks chunks' : ChunkBuilder σ)
    (err : ErrorCode) (m : Mem),
    createChunks ops openAt fuel b root chunks = some (err, m, chunks') →
    SlackOnly t b.data m
      ∧ (∀ p, Reaches m p → NodeAt t m p)
      ∧ ∀ path p l, MetaFileSystem.getNodeOffset m path = some (.ok, p) →
        Reaches m p → MetaFileSystem.listDir m path = some (.ok, l) →
        ∀ x ∈ l, ∃ q, NodeAt t m q ∧ x.2 = MetaFileSystem.getStat m q

/-- What `get_dir` lists of a node that is reached is reached itself. -/
theorem listed_reached {path : Bytes} {p : Nat}
    {l : List (Nat × StatReply)}
    (hpath : MetaFileSystem.getNodeOffset m path = some (.ok, p))
    (hreached : Reaches m p)
    (h : MetaFileSystem.listDir m path = some (.ok, l)) :
    ∀ x ∈ l, ∃ q, Reaches m q ∧ x.2 = MetaFileSystem.getStat m q := by
  unfold MetaFileSystem.listDir MetaFileSystem.getDir at h
  rw [hpath] at h
  simp only at h
  split at h
  · cases h
  · next hdir =>
    have hdir' : sIsDir (Node.mode m p) = true := by simpa using hdir
    rw [MetaFileSystem.readEntries_collect, Option.some.injEq, Prod.mk.injEq,
      List.nil_append, Nat.sub_zero] at h
    rw [← h.2]
    intro x hx
    obtain ⟨j, hj, rfl⟩ := List.mem_map.1 hx
    rw [Nat.zero_add]
    exact ⟨_, .entry p j hreached hdir' (List.mem_range.1 hj), rfl⟩

/-- Where nothing vanishes, the image holds together. -/
theorem intact_of_stays {b : MetaFSBuilder} (hat : At b.data usizeSize t)
    (hsup : t.supported = true) (hstays : Stays t) : Intact t b := by
  have hroot : ∀ root : Bytes, ∀ x ∈ [(usizeSize, root)],
      ∃ path s, Placed usizeSize t path x.1 s := by
    intro root x hx
    rw [List.mem_singleton.1 hx]
    exact ⟨[], t, .here usizeSize t hsup⟩
  refine ⟨fun p hp => reaches_node hat hsup hstays hp, ?_, ?_⟩
  · intro σ ops openAt fuel root chunks chunks' vs err m hvisits v hv
    obtain ⟨hnodes, -⟩ := visits_nodes hat hstays fuel _ _ _ _ _ _ _ hvisits
      (hroot root) fun _ _ => rfl
    obtain ⟨path, s, hplaced⟩ := hnodes v hv
    exact ⟨path, s, hplaced, hat.placed hplaced⟩
  · intro σ ops openAt fuel root chunks chunks' err m hcreate
    have hslack : SlackOnly t b.data m := by
      rcases image_of_createChunks hcreate with rfl | ⟨c, c', vs, e, hvisits⟩
      · exact fun _ _ => rfl
      · exact (visits_nodes hat hstays fuel _ _ _ _ _ _ _ hvisits
          (hroot root) fun _ _ => rfl).2
    have hnode : ∀ p, Reaches m p → NodeAt t m p :=
      fun p hp => reaches_node (hslack.at hat) hsup hstays hp
    refine ⟨hslack, hnode, fun path p l hpath hreached hlist x hx => ?_⟩
    obtain ⟨q, hq, hstat⟩ := listed_reached hpath hreached hlist x hx
    exact ⟨q, hnode q hq, hstat⟩

/-- After a scan that returns, the image holds together if and only if
there is a root and nothing that was listed vanishes before its visit. -/
theorem intact_iff_stays (heap : Nat → Mem) (t : SourceTree)
    (b : MetaFSBuilder) (off : Nat)
    (hscan : scanDfs heap t (start heap) = some (b, off)) :
    Intact t (measured b) ↔ t.supported = true ∧ Stays t := by
  have hat : At (measured b).data usizeSize t := (scanned hscan).2.2
  constructor
  · intro h
    obtain ⟨path, s, hplaced, -⟩ := h.reached usizeSize .root
    refine ⟨hplaced.root, ?_⟩
    by_contra hvanishes
    exact not_nodeAt_zero (h.reached 0 (reaches_zero hat hvanishes))
  · rintro ⟨hsup, hstays⟩
    exact intact_of_stays hat hsup hstays

theorem intact_one_file :
    ∃ b, scanDfs (fun _ _ => 0) (MetaFileSystem.oneFile [])
          (start fun _ _ => 0) = some (b, usizeSize)
      ∧ (Intact (MetaFileSystem.oneFile []) (measured b)
        ↔ (MetaFileSystem.oneFile []).supported = true
          ∧ Stays (MetaFileSystem.oneFile [])) := by
  obtain ⟨b, hscan⟩ := @scanDfs_small (fun _ _ => 0)
    (MetaFileSystem.oneFile []) (by decide) (by decide)
  exact ⟨b, hscan, intact_iff_stays _ _ b _ hscan⟩

/-- A directory whose one file `f` is removed after it was listed. -/
def lostFile : SourceTree :=
  .node (MetaFileSystem.statOf 0x41ED) [] [] [([102], some 0x81A4, .gone)]

/-- The entry `f` names the length of the image. -/
theorem lostFile_not_intact :
    ∃ b, scanDfs (fun _ _ => 0) lostFile (start fun _ _ => 0)
          = some (b, usizeSize)
      ∧ Reaches (measured b).data 0 ∧ ¬ Intact lostFile (measured b) := by
  have hsup : lostFile.supported = true := by decide
  obtain ⟨b, hscan⟩ := @scanDfs_small (fun _ _ => 0) lostFile hsup (by decide)
  have hvanishes : ¬ Stays lostFile := fun h =>
    absurd (h [] lostFile (.here _ hsup) ([102], .gone)
      (List.mem_singleton_self _)) (by decide)
  have hzero := reaches_zero (scanned hscan).2.2 hvanishes
  exact ⟨b, hscan, hzero, fun h => not_nodeAt_zero (h.reached 0 hzero)⟩

end MetaFSBuilder

end Distfs

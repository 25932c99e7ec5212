/-
Walking a metadata image gives back the source tree.

# The walk

`walk` starts at a node and follows offsets only: `data_offset` of the
node, and `name_offset` and `data_offset` of the entries of a directory,
as `create_chunks` and `get_dir` do. It cannot tell where a record was
meant to end, so that it finds the tree says that the offsets are right.

# The tree

`Pictures` says what is to be found of a source tree: the kinds and the
modes, for a link the target, for a directory its kept entries in
strictly ascending order.
-/
import Distfs.Data.BuilderProgress
import Distfs.Meta.Lookup
import Distfs.Meta.Turns

namespace Distfs

open SourceTree ChunkBuilder

/-- What can be seen from a node. -/
inductive Walked where
  | file (mode : Nat)
  | link (mode : Nat) (target : Bytes)
  | dir (mode : Nat) (entries : List (Bytes × Walked))

namespace MetaFSBuilder

/-- The entries of a directory from index `i` on, `k` of them. -/
def walkEntries (m : Mem) (size dirents : Nat) (visit : Nat → Option Walked) :
    Nat → Nat → Option (List (Bytes × Walked))
  | 0, _ => some []
  | k + 1, i =>
      match stringAt m size (Entry.nameOffset m dirents i) with
      | none => none
      | some name =>
          match visit (Entry.dataOffset m dirents i) with
          | none => none
          | some w =>
              match walkEntries m size dirents visit k (i + 1) with
              | none => none
              | some ws => some ((name, w) :: ws)

/-- Walk the image from the node at `n`, as deep as `fuel` says. -/
def walk (m : Mem) (size : Nat) : Nat → Nat → Option Walked
  | 0, _ => none
  | fuel + 1, n =>
      let mode := Node.mode m n
      if sIsReg mode then some (.file mode)
      else if sIsDir mode then
        match walkEntries m size (Node.dataOffset m n) (walk m size fuel)
            (Node.length m n) 0 with
        | none => none
        | some entries => some (.dir mode entries)
      else if sIsLnk mode then
        match stringAt m size (Node.dataOffset m n) with
        | none => none
        | some target => some (.link mode target)
      else none

/-- What was seen is the source tree. -/
inductive Pictures : SourceTree → Walked → Prop where
  | file (st : Stat) (xattrs : Xattrs) (target : Bytes)
      (entries : List Listed) (isReg : sIsReg st.mode.toNat = true) :
      Pictures (.node st xattrs target entries) (.file st.mode.toNat)
  | link (st : Stat) (xattrs : Xattrs) (target : Bytes)
      (entries : List Listed) (isLnk : sIsLnk st.mode.toNat = true) :
      Pictures (.node st xattrs target entries)
        (.link st.mode.toNat (linkName target))
  | dir (st : Stat) (xattrs : Xattrs) (target : Bytes)
      (entries : List Listed) (ws : List (Bytes × Walked))
      (isDir : sIsDir st.mode.toNat = true)
      (names : ws.map Prod.fst = (sortedEntries entries).map Prod.fst)
      (ascending : (ws.map Prod.fst).Pairwise (· < ·))
      (below : ∀ (i : Nat) (e : Bytes × SourceTree) (w : Bytes × Walked),
        (sortedEntries entries)[i]? = some e → ws[i]? = some w →
        Pictures e.2 w.2) :
      Pictures (.node st xattrs target entries) (.dir st.mode.toNat ws)

section Walk

variable {m : Mem} {size : Nat}

/-- The loop over the entries of a directory. -/
theorem walkEntries_spec {off mode : Nat} {xattrs : Xattrs}
    {es : List (Bytes × SourceTree)} {visit : Nat → Option Walked}
    (h : DirAt m off mode xattrs es)
    (hes : ∀ e ∈ es, 0 ∉ e.1 ∧ e.2.supported = true)
    (hfit : headEnd off xattrs es ≤ size)
    (hvisit : ∀ i e, es[i]? = some e →
      ∃ w, visit (childPos off xattrs es i) = some w ∧ Pictures e.2 w)
    (k : Nat) :
    ∀ i, i + k = es.length →
      ∃ ws, walkEntries m size (direntsPos off xattrs) visit k i = some ws
        ∧ ws.map Prod.fst = (es.drop i).map Prod.fst
        ∧ ∀ (j : Nat) (e : Bytes × SourceTree) (w : Bytes × Walked),
          (es.drop i)[j]? = some e → ws[j]? = some w →
          Pictures e.2 w.2 := by
  have hhead : headEnd off xattrs es
      = direntsPos off xattrs + namesLen (es.map Prod.fst) := rfl
  induction k with
  | zero =>
      intro i hi
      rw [List.drop_eq_nil_of_le (by omega)]
      exact ⟨[], rfl, rfl, fun j e w he => by simp at he⟩
  | succ k ih =>
      intro i hi
      have hlt : i < es.length := by omega
      obtain ⟨e, he⟩ : ∃ e, es[i]? = some e :=
        ⟨_, List.getElem?_eq_getElem hlt⟩
      obtain ⟨h0, hsup⟩ := hes e (List.mem_of_getElem? he)
      have hi' : (es.map Prod.fst)[i]? = some e.1 := by
        rw [List.getElem?_map, he]
        rfl
      obtain ⟨-, hend, hstr⟩ := h.node.name i e.1 hi'
      have hchild := h.child i e he
      rw [if_pos hsup] at hchild
      have hdrop : es.drop i = e :: es.drop (i + 1) := by
        rw [List.drop_eq_getElem_cons hlt,
          (List.getElem?_eq_some_iff.1 he).2]
      obtain ⟨w, hw, hpictures⟩ := hvisit i e he
      obtain ⟨ws, hws, hnames, hbelow⟩ := ih (i + 1) (by omega)
      unfold walkEntries
      rw [stringAt_of_cstr (hstr h0) h0 (by omega), hchild, hw, hws, hdrop]
      refine ⟨_, rfl, ?_, fun j e' w' he' hw' => ?_⟩
      · rw [List.map_cons, List.map_cons, hnames]
      · cases j with
        | zero =>
            obtain rfl := Option.some.inj he'
            obtain rfl := Option.some.inj hw'
            exact hpictures
        | succ j => exact hbelow j e' w' he' hw'

/-- The walk finds the tree, wherever its records are. -/
theorem walk_spec : ∀ t : SourceTree, ∀ off fuel, At m off t → Static t →
    t.supported = true → off + t.extent ≤ size → t.extent ≤ fuel →
    ∃ w, walk m size fuel off = some w ∧ Pictures t w := by
  apply SourceTree.induct
  · intro off fuel _ _ hsup
    cases hsup
  · intro st xattrs target entries ih off fuel hat hstatic hsup hsize hfuel
    have hextent := nodeSize_le_extent hsup
    have hnode : nodeSize = 72 := rfl
    obtain ⟨fuel, rfl⟩ : ∃ k, fuel = k + 1 := ⟨fuel - 1, by omega⟩
    unfold walk
    simp only
    cases hat with
    | skip _ _ unsupported =>
        rw [unsupported] at hsup
        cases hsup
    | file _ _ _ _ _ isReg mode =>
        rw [mode, if_pos isReg]
        exact ⟨_, rfl, .file st xattrs target entries isReg⟩
    | link _ _ _ _ _ isLnk mode dataOffset content =>
        obtain ⟨hreg, hdir⟩ := not_reg_dir_of_lnk isLnk
        have h0 : (0 : UInt8) ∉ linkName target := fun h => by
          have := List.mem_takeWhile_imp h
          simp at this
        have hfit : direntsPos off xattrs + ((linkName target).length + 1)
            ≤ size := by
          rw [extent_lnk isLnk] at hsize
          rw [direntsPos]
          omega
        rw [mode, if_neg (by rw [hreg]; simp), if_neg (by rw [hdir]; simp),
          if_pos isLnk, dataOffset, stringAt_of_cstr content h0 hfit]
        exact ⟨_, rfl, .link st xattrs target entries isLnk⟩
    | dir _ _ _ _ _ isDir records below =>
        obtain ⟨-, hreg⟩ := not_lnk_reg_of_dir isDir
        have hend := @extent_dir st xattrs target entries isDir off
        have hkept : (SourceTree.node st xattrs target entries).kept
            = sortedEntries entries := if_pos isDir
        have hchild : ∀ e ∈ sortedEntries entries, 0 ∉ e.1
            ∧ e.2.supported = true ∧ Static e.2 := by
          intro e he
          obtain ⟨hname, hs⟩ := hstatic.kept (hkept ▸ he)
          exact ⟨hname.2.1, hs⟩
        have hascending := hstatic.ascending
        rw [hkept] at hascending
        have hvisit : ∀ i e, (sortedEntries entries)[i]? = some e →
            ∃ w, walk m size fuel
                (childPos off xattrs (sortedEntries entries) i) = some w
              ∧ Pictures e.2 w := by
          intro i e he
          -- an entry takes fewer bytes than the directory
          have hmem := List.mem_of_getElem? he
          obtain ⟨x, hx, -, hxe⟩ := mem_sortedEntries.1 hmem
          obtain ⟨-, hsup', hstatic'⟩ := hchild e hmem
          have hstart :=
            @headEnd_le_childPos off xattrs (sortedEntries entries) i
          have hstop := @childPos_end off xattrs _ _ _ he
          rw [headEnd] at hstart
          have hx2 : x.2.2 = e.2 := by rw [← hxe]
          have hvisited := ih x hx
          rw [hx2] at hvisited
          exact hvisited _ fuel (below i e he) hstatic' hsup' (by omega)
            (by omega)
        have hfit : headEnd off xattrs (sortedEntries entries) ≤ size := by
          omega
        obtain ⟨ws, hws, hnames, hbelow⟩ :=
          walkEntries_spec records
            (fun e he => ⟨(hchild e he).1, (hchild e he).2.1⟩)
            hfit hvisit (sortedEntries entries).length 0
            (Nat.zero_add _)
        rw [records.node.mode, if_neg (by rw [hreg]; simp), if_pos isDir,
          records.node.dataOffset, records.node.length, List.length_map,
          hws]
        rw [List.drop_zero] at hnames hbelow
        refine ⟨_, rfl, .dir st xattrs target entries ws isDir hnames ?_
          hbelow⟩
        rw [hnames]
        exact List.pairwise_map.2 hascending

end Walk

-- ======================================================== the build

section Build

variable {σ : Type} {ops : ChunkOps σ} {ready : σ → Prop}
  {openAt : Bytes → SourceFile} {heap : Nat → Mem} {root : Bytes}
  {t : SourceTree} {buff : Mem} {s : σ} {fuel : Nat}

/-- The turns are one for each node of the tree, under its own path, and
those that added a file are those of the regular files. -/
structure EachOnce (t : SourceTree) (root : Bytes) (vs : List Visited) :
    Prop where
  node : ∀ v ∈ vs, ∃ path s, Placed usizeSize t path v.pos s
    ∧ v.path = root ++ slashed path ∧ v.added.isSome = s.isReg
  all : ∀ path p s, Placed usizeSize t path p s → ∃ v ∈ vs, v.pos = p
  once : (vs.map Visited.pos).Nodup

/-- The root covers every node. -/
theorem Turns.eachOnce {vs : List Visited}
    (h : Turns t openAt root
      [{ pos := usizeSize, path := [], tree := t }] vs) :
    EachOnce t root vs := by
  refine ⟨fun v hv => (h.node v hv).2, fun path p s hplaced => ?_, h.once⟩
  have hnode : nodeSize = 72 := rfl
  obtain ⟨hs, hlo, hhi⟩ := hplaced.within
  have hextent := nodeSize_le_extent hs
  refine h.all path p s hplaced ⟨_, List.mem_singleton_self _, hlo, ?_⟩
  show p < usizeSize + t.extent
  omega

theorem serves_of_succeeds (hops : ops.Succeeds ready) :
    Serves ops fun _ b => ready b.store :=
  fun _ _ _ hb hsound => addFile_ok hops hb hsound

/-- After `scan_dfs` the walk of the image finds the tree; and the loop
of `create_chunks` ends, having taken each node once. The scan fails only
if the buffer cannot grow to twice the size of the image. -/
theorem image_encodes_tree (hstatic : Static t) (hsup : t.supported = true)
    (hfew : ∀ path s, Named t path s → s.kept.length < 2 ^ 31)
    (hops : ops.Succeeds ready) (hready : ready s)
    (hsound : ∀ path s, Named t path s → s.isReg = true →
      Sound (sourceAt openAt root path))
    (hfuel : t.extent ≤ fuel) :
    (scanDfs heap t (start heap) = none
        ∧ allocLimit < 2 * (usizeSize + t.extent))
      ∨ ∃ b, scanDfs heap t (start heap) = some (b, usizeSize)
        ∧ (∃ w, walk b.data b.dataSize.1 t.extent usizeSize = some w
          ∧ Pictures t w)
        ∧ ∃ q, queued ops openAt fuel heap root t (new s buff) = some q
          ∧ q.err = .ok ∧ EachOnce t root q.visited := by
  rcases scanDfs_spec heap t (start heap)
      (show usizeSize ≤ chunkSizeBytes by decide)
    with ⟨b, hscan, hext, hat⟩ | ⟨hnone, hlimit | ⟨path, u, hnamed, hu⟩⟩
  · rw [hsup, if_pos rfl] at hscan
    have hpos : b.currentPos = usizeSize + t.extent := hext.pos
    have hfits := hext.fits
    refine .inr ⟨b, hscan, ?_, ?_⟩
    · exact walk_spec t usizeSize t.extent hat hstatic hsup (by omega)
        (Nat.le_refl _)
    · have hat' : At (b.data.writeLe 0 usizeSize b.currentPos) usizeSize t :=
        hat.congr fun a hlo _ _ => (Mem.writeLe_outside _ (.inr hlo)).symm
      have hnew : ready (new s buff).store := hready
      obtain ⟨reply, chunks, hreserve, hok, hchunks⟩ :=
        reserve_ok hops hnew b.currentPos
      obtain ⟨vs, m, chunks', hvisits, -, hturns⟩ :=
        visits_turns (serves_of_succeeds hops) hstatic.found hat'
          (by omega : usizeSize + t.extent ≤ b.dataSize.1) hsound fuel _ _
          chunks (walkInv_start hsup) hchunks (by simpa using hfuel)
      rw [List.map_singleton, Item.queued,
        show root ++ slashed [] = root from List.append_nil root] at hvisits
      refine ⟨{ root := usizeSize, visited := vs, err := .ok, data := m
                size := b.currentPos, start := reply.offset
                chunks := chunks' }, ?_, rfl, hturns.eachOnce⟩
      exact (queued_ok_iff.2 ⟨rfl, b, reply, chunks, hscan, rfl, hreserve,
        hok, rfl, hvisits⟩).1
  · exact .inl ⟨hnone, hlimit⟩
  · have := hfew path u hnamed
    omega

theorem image_encodes_one_file :
    ∃ b, scanDfs (fun _ _ => 0) (MetaFileSystem.oneFile [([97], [49])])
          (start fun _ _ => 0) = some (b, usizeSize)
      ∧ (∃ w, walk b.data b.dataSize.1
            (MetaFileSystem.oneFile [([97], [49])]).extent usizeSize = some w
          ∧ Pictures (MetaFileSystem.oneFile [([97], [49])]) w)
      ∧ ∃ q, queued MemoryStore.ops
            (fun _ => .opened { rest := [104, 105], script := [] })
            200 (fun _ _ => 0) [115]
            (MetaFileSystem.oneFile [([97], [49])])
            (new .empty fun _ => 0) = some q
          ∧ q.err = .ok
          ∧ EachOnce (MetaFileSystem.oneFile [([97], [49])]) [115]
            q.visited := by
  have hfew : ∀ path s, Named (MetaFileSystem.oneFile [([97], [49])]) path s →
      s.kept.length < 2 ^ 31 := by
    intro path s hnamed
    cases hnamed with
    | here _ _ => decide
    | entry _ e path _ listed rest =>
        rw [MetaFileSystem.oneFile_kept, List.mem_singleton] at listed
        subst listed
        cases rest with
        | here _ _ => decide
        | entry _ e path _ listed rest => cases listed
  have hfuel : (MetaFileSystem.oneFile [([97], [49])]).extent ≤ 200 := by
    decide
  have hsound : ∀ path s,
      Named (MetaFileSystem.oneFile [([97], [49])]) path s →
      s.isReg = true →
      Sound (sourceAt (fun _ => .opened { rest := [104, 105], script := [] })
        [115] path) :=
    fun _ _ _ _ c hc => absurd hc List.not_mem_nil
  refine Or.resolve_left (image_encodes_tree
    (MetaFileSystem.oneFile_static [([97], [49])]) (by decide) hfew
    (MemoryStore.faithful _).succeeds MemoryStore.ready_empty hsound hfuel)
    ?_
  rintro ⟨-, hlimit⟩
  exact absurd hlimit (by decide)

end Build

end MetaFSBuilder

end Distfs

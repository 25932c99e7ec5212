/-
What `build` publishes depends on what was in the memory it got.

# The padding

Four bytes of a `Node`, between `gid` and `size`, belong to no field, and
`build` writes the buffer out with them. Those of the first node stand in
the first chunk of every build that returns, as `new char[]` found them
(`padding_published`).

# The two runs

Which calls are made does not depend on these bytes: the scan of a tree
that fits into the chunks fails only where a directory is too large, and
the queue loop takes the same nodes under the same paths from both images
(`visits_alike`). So where one run returns, another one does that found
another byte there, and the two store different chunks.
-/
import Distfs.Meta.Turns
import Distfs.Meta.Vanished

namespace Distfs

open SourceTree ChunkBuilder

namespace MetaFSBuilder

variable {heap : Nat → Mem} {b b' : MetaFSBuilder} {t : SourceTree}
  {a off : Nat}

-- ========================================================= the padding

/-- The first byte of the padding of the first node. -/
def padding : Nat := usizeSize + 12

theorem setStat_padding {st : Stat} {m : Mem} {p : Nat} (hlo : p + 12 ≤ a)
    (hhi : a < p + 16) : setStat st m p a = m a := by
  unfold setStat
  repeat rw [Mem.writeLe_outside _ (by omega)]

/-- Neither the number of attributes nor the attributes reach it. -/
theorem addXattrs_padding {xattrs : Xattrs} {m : Mem} {p k : Nat}
    (hlo : p + 12 ≤ a) (hhi : a < p + 16) :
    (addXattrs xattrs (Node.setXattrsCount m p k) (p + nodeSize)).1 a
      = m a := by
  have hnode : nodeSize = 72 := rfl
  rw [(addXattrs_spec xattrs _ (p + nodeSize)).2.1 a (by omega),
    Node.setXattrsCount_outside (by omega)]

section Record

variable (hlo : b.currentPos + 12 ≤ a) (hhi : a < b.currentPos + 16)
  (hin : a < b.dataSize.1)

include hlo hhi hin

theorem addFile_padding {st : Stat} {xattrs : Xattrs}
    (h : b.addFile heap st xattrs = some (b', off)) :
    b'.data a = b.data a := by
  rcases @reserveBuffer_spec heap b (nodeSize + xattrsLen xattrs)
    with ⟨b₁, hreserve, hpos, -, hdata⟩ | ⟨hnone, -⟩
  · unfold addFile at h
    simp only [hreserve, hpos, Option.some.injEq, Prod.mk.injEq] at h
    rw [← h.1]
    simp only
    rw [addXattrs_padding hlo hhi, setStat_padding hlo hhi, hdata a hin]
  · unfold addFile at h
    rw [hnone] at h
    cases h

theorem addLink_padding {st : Stat} {target : Bytes} {xattrs : Xattrs}
    (h : b.addLink heap st target xattrs = some (b', off)) :
    b'.data a = b.data a := by
  have hnode : nodeSize = 72 := rfl
  rcases @reserveBuffer_spec heap b
    (nodeSize + (target.length + 1) + xattrsLen xattrs)
    with ⟨b₁, hreserve, hpos, -, hdata⟩ | ⟨hnone, -⟩
  · unfold addLink at h
    simp only [hreserve, hpos, Option.some.injEq, Prod.mk.injEq] at h
    rw [← h.1]
    simp only
    have hend := fun m =>
      (addXattrs_spec xattrs m (b.currentPos + nodeSize)).1
    rw [Node.setDataOffset_outside (by omega),
      Mem.write_outside _ (by rw [hend]; omega),
      addXattrs_padding hlo hhi, setStat_padding hlo hhi, hdata a hin]
  · unfold addLink at h
    simp only [hnone] at h
    cases h

theorem addDir_padding {st : Stat} {names : List Bytes} {xattrs : Xattrs}
    {dirents : Nat}
    (h : b.addDir heap st names xattrs = some (b', off, dirents)) :
    b'.data a = b.data a := by
  have hnode : nodeSize = 72 := rfl
  rcases @reserveBuffer_spec heap b
    (nodeSize + namesLen names + xattrsLen xattrs)
    with ⟨b₁, hreserve, hpos, -, hdata⟩ | ⟨hnone, -⟩
  · unfold addDir at h
    simp only [hreserve, hpos, Option.some.injEq, Prod.mk.injEq] at h
    rw [← h.1]
    simp only
    have hend := fun m =>
      (addXattrs_spec xattrs m (b.currentPos + nodeSize)).1
    rw [hend, entrySize]
    rw [(addNamesFrom_spec _ names 0 _ _ (by omega)).2.1 a (by omega)
        (by omega),
      Node.setDataOffset_outside (by omega),
      addXattrs_padding hlo hhi, Node.setLength_outside (by omega),
      setStat_padding hlo hhi, hdata a hin]
  · unfold addDir at h
    rw [hnone] at h
    cases h

/-- A visit that writes a node leaves its padding as it was. -/
theorem scanDfs_padding (hfits : b.currentPos ≤ b.dataSize.1)
    (hsup : t.supported = true)
    (h : scanDfs heap t b = some (b', off)) : b'.data a = b.data a := by
  have hnode : nodeSize = 72 := rfl
  cases t with
  | gone => cases hsup
  | node st xattrs target entries =>
      have hsup' : isSupported st.mode.toNat = true := hsup
      rw [scanDfs, if_neg (not_not.2 hsup')] at h
      simp only at h
      split at h
      · exact addLink_padding hlo hhi hin h
      · split at h
        · exact addFile_padding hlo hhi hin h
        · rw [sorted_scanners] at h
          split at h
          · cases h
          · next b₁ addr dirents hadd =>
            split at h
            · cases h
            · next b₂ hscan =>
              obtain ⟨rfl, -⟩ := Prod.mk.inj (Option.some.inj h)
              have hkeep := addDir_padding hlo hhi hin hadd
              -- the entries are filled in behind the node
              rcases @addDir_spec heap b st
                (((sortedEntries entries).map (visit heap)).map Prod.fst)
                (readXattrs xattrs) hfits
                with ⟨b₁', hadd', hext, -⟩ | ⟨hnone, -⟩
              · rw [hadd] at hadd'
                obtain ⟨rfl, -, rfl⟩ : b₁ = b₁' ∧ addr = b.currentPos
                    ∧ dirents
                      = direntsPos b.currentPos (readXattrs xattrs) := by
                  simpa using hadd'
                have hpos := hext.pos
                have hlen := namesLen_eq
                  (((sortedEntries entries).map (visit heap)).map Prod.fst)
                rw [List.length_map, List.length_map] at hlen
                rw [direntsPos] at hscan
                rcases scanEntries_spec
                  (b.currentPos + nodeSize + xattrsLen (readXattrs xattrs))
                  (sortedEntries entries)
                  (fun e _ => scanDfs_spec heap e.2) 0 b₁ (by omega) hext.fits
                  with ⟨b₂', hscan', -, -, hout, -⟩ | ⟨hnone, -⟩
                · rw [hscan] at hscan'
                  obtain rfl := Option.some.inj hscan'
                  rw [hout a (by omega) fun k _ => by omega, hkeep]
                · rw [hscan] at hnone
                  cases hnone
              · rw [hadd] at hnone
                cases hnone

end Record

-- ======================================================== the two runs

variable {σ : Type} {ops : ChunkOps σ} {openAt : Bytes → SourceFile}
  {root : Bytes}

/-- From two images of one tree the queue loop takes the same nodes, and
asks the same of the chunk builder. -/
theorem visits_alike {m₀ m₀' : Mem} {size size' : Nat} (hfound : Found t)
    (hat : At m₀ usizeSize t) (hat' : At m₀' usizeSize t)
    (hsize : usizeSize + t.extent ≤ size)
    (hsize' : usizeSize + t.extent ≤ size') (fuel : Nat) :
    ∀ (items : List Item) (m m' m₁ : Mem) (c c₁ : ChunkBuilder σ)
      (vs : List Visited) (err : ErrorCode),
      (∀ x ∈ items, Placed usizeSize t x.path x.pos x.tree) →
      SlackOnly t m₀ m → SlackOnly t m₀' m' →
      visits ops openAt size fuel (items.map (Item.queued root)) m c
        = some (vs, err, m₁, c₁) →
      ∃ m₁', visits ops openAt size' fuel (items.map (Item.queued root)) m' c
        = some (vs, err, m₁', c₁) := by
  have hnode : nodeSize = 72 := rfl
  induction fuel with
  | zero =>
      intro items m m' m₁ c c₁ vs err _ _ _ h
      cases items with
      | nil =>
          cases h
          exact ⟨m', rfl⟩
      | cons x items => cases h
  | succ fuel ih =>
      intro items m m' m₁ c c₁ vs err hitems hslack hslack' h
      cases items with
      | nil =>
          cases h
          exact ⟨m', rfl⟩
      | cons x items =>
          have hx := hitems x List.mem_cons_self
          have htail : ∀ y ∈ items, Placed usizeSize t y.path y.pos y.tree :=
            fun y hy => hitems y (List.mem_cons_of_mem _ hy)
          obtain ⟨hsup, -, hend⟩ := hx.within
          have hextent := nodeSize_le_extent hsup
          have hin : ¬ size < x.pos + nodeSize := by omega
          have hin' : ¬ size' < x.pos + nodeSize := by omega
          -- both images have the records of the tree
          obtain ⟨-, hreg⟩ := ((hslack.at hat).placed hx).kind hsup
          obtain ⟨-, hreg'⟩ := ((hslack'.at hat').placed hx).kind hsup
          rw [List.map_cons, Item.queued] at h ⊢
          cases hkind : x.tree.isReg with
          | true =>
              obtain ⟨reply, c₂, hadd, hturn⟩ :=
                (visits_reg hin (hreg.trans hkind)).1 h
              rcases hturn with ⟨hgoes, us, hvs, hrest⟩ | ⟨hends, hlast⟩
              · obtain ⟨m₁', hrest'⟩ := ih items _ _ m₁ c₂ c₁ us err htail
                  (hslack.answered hx hkind reply)
                  (hslack'.answered hx hkind reply) hrest
                exact ⟨m₁', (visits_reg hin' (hreg'.trans hkind)).2
                  ⟨reply, c₂, hadd, .inl ⟨hgoes, us, hvs, hrest'⟩⟩⟩
              · obtain ⟨hvs, herr, -, hc⟩ := hlast
                exact ⟨answered m' x.pos reply,
                  (visits_reg hin' (hreg'.trans hkind)).2
                    ⟨reply, c₂, hadd, .inr ⟨hends, hvs, herr, rfl, hc⟩⟩⟩
          | false =>
              obtain ⟨us, q, hqueue, hvs, hrest⟩ :=
                (visits_other hin (hreg.trans hkind)).1 h
              rw [queueAfter_children hfound (hslack.at hat) hsize hx root
                items, Option.some.injEq] at hqueue
              rw [← hqueue] at hrest
              have hall : ∀ y ∈ items ++ x.children,
                  Placed usizeSize t y.path y.pos y.tree :=
                List.forall_mem_append.2
                  ⟨htail, placed_children hfound hx⟩
              obtain ⟨m₁', hrest'⟩ :=
                ih _ m m' m₁ c c₁ us err hall hslack hslack' hrest
              exact ⟨m₁', (visits_other hin' (hreg'.trans hkind)).2
                ⟨us, _, queueAfter_children hfound (hslack'.at hat') hsize'
                  hx root items, hvs, hrest'⟩⟩

section Build

variable {ready : σ → Prop} {view : σ → UInt32 → Option Bytes} {top : Nat}
  {s : σ} {buff : Mem} {fuel : Nat} {r : Built σ}
  (hf : ops.Faithful ready view fun id => id.toNat ≤ top / chunkSizeBytes)
  (htop : top ≤ 2 ^ 32 * chunkSizeBytes) (hfound : Found t)
  (hsup : t.supported = true)
  (htotal : totalLen t (sourceAt openAt root) ≤ top) (hready : ready s)
  (hempty : ∀ id, view s id = none)

/-- How a build that returned got to its image. -/
theorem visits_of_build (hok : r.err = .ok)
    (h : build ops openAt fuel heap root t (new s buff) = some r) :
    ∃ b off reply c c' vs, scanDfs heap t (start heap) = some (b, off)
      ∧ r.size = b.currentPos
      ∧ (new s buff).reserve ops b.currentPos = some (reply, c)
      ∧ visits ops openAt b.dataSize.1 fuel [(usizeSize, root)]
          (b.data.writeLe 0 usizeSize b.currentPos) c
        = some (vs, .ok, r.data, c') := by
  obtain ⟨q, hqueued,
    ⟨hfailed, herr⟩ | ⟨hqok, reply, b₁, err, b₂, -, -, rfl⟩⟩ := build_cases h
  · exact absurd (herr ▸ hok) hfailed
  · obtain ⟨-, b, reply', c, hscan, hsize, hreserve, -, -, hvisits⟩ :=
      queued_ok_iff.1 ⟨hqueued, hqok⟩
    exact ⟨b, q.root, reply', c, q.chunks, q.visited, hscan, hsize, hreserve,
      hvisits⟩

/-- The padding is no slack. -/
theorem not_slack_padding : ¬ Slack usizeSize t padding := by
  rintro ⟨path, p, u, hplaced, -, hlo, -⟩
  have hp : usizeSize ≤ p := hplaced.within.2.1
  rw [padding] at hlo
  omega

include hf htop hfound hsup htotal hready hempty

/-- The padding of the first node is in the first chunk, as it was found
in memory. -/
theorem padding_published
    (hbuild : build ops openAt fuel heap root t (new s buff) = some r) :
    ∃ chunk, view r.chunks.store 0 = some chunk
      ∧ chunk[padding]? = some (heap 0 padding) := by
  obtain ⟨-, hleaves⟩ :=
    leaves_of_build hf htop hfound hsup htotal hready hempty hbuild
  obtain ⟨b, off, reply, c, c', vs, hscan, hsize, -, hvisits⟩ :=
    visits_of_build hleaves.err hbuild
  have hextent := nodeSize_le_extent hsup
  have hnode : nodeSize = 72 := rfl
  have husize : usizeSize = 8 := rfl
  have hpad : padding = 20 := rfl
  obtain ⟨-, -, hat⟩ := scanned hscan
  -- neither the scan nor `create_chunks` writes there
  have hbyte : r.data padding = heap 0 padding := by
    obtain ⟨-, hslack⟩ := visits_nodes hat
      (fun path u hnamed e he => (hfound path u hnamed e he).2) fuel _ _ _ _ _
      _ _ hvisits
      (List.forall_mem_singleton.2 ⟨[], t, .here usizeSize t hsup⟩)
      fun _ _ => rfl
    rw [hslack padding not_slack_padding,
      Mem.writeLe_outside _ (.inr (by omega))]
    exact scanDfs_padding (show usizeSize + 12 ≤ padding by decide)
      (show padding < usizeSize + 16 by decide)
      (show padding < chunkSizeBytes by decide)
      (show usizeSize ≤ chunkSizeBytes by decide) hsup hscan
  have hin : padding < r.size := by
    rw [hleaves.size]
    omega
  obtain ⟨chunk, hchunk, hget⟩ :=
    hleaves.image padding (by rw [Mem.length_read]; exact hin)
  rw [Nat.zero_add] at hchunk hget
  rw [show padding % chunkSizeBytes = padding from rfl,
    Mem.getElem?_read hin, Nat.zero_add, hbyte] at hget
  exact ⟨chunk, hchunk, hget⟩

/-- Where one run of `build` returns, so does one that finds other bytes
in memory. -/
theorem build_alike
    (hbuild : build ops openAt fuel heap root t (new s buff) = some r)
    (heap' : Nat → Mem) :
    ∃ fuel' r', build ops openAt fuel' heap' root t (new s buff)
      = some r' := by
  have hbuild' := build_mono hbuild t.extent
  obtain ⟨-, hleaves⟩ :=
    leaves_of_build hf htop hfound hsup htotal hready hempty hbuild'
  obtain ⟨b, off, reply, c, c', vs, hscan, -, hreserve, hvisits⟩ :=
    visits_of_build hleaves.err hbuild'
  obtain ⟨hpos, hfits, hat⟩ := scanned hscan
  -- the scan fails for no reason that has to do with the bytes
  have hscan' : ∃ b' off',
      scanDfs heap' t (start heap') = some (b', off') := by
    rcases scanDfs_spec heap' t (start heap')
        (show usizeSize ≤ chunkSizeBytes by decide)
      with ⟨b', hsome, -⟩ | ⟨-, hlimit | hcrowded⟩
    · exact ⟨b', _, hsome⟩
    · have hmax : allocLimit = 2 ^ 63 - 1 := rfl
      have hstart : (start heap').currentPos = usizeSize := rfl
      have hchunk := chunkSizeBytes_eq
      rw [totalLen] at htotal
      omega
    · rw [scanDfs_crowded hcrowded] at hscan
      cases hscan
  obtain ⟨b', off', hscan'⟩ := hscan'
  obtain ⟨hpos', hfits', hat'⟩ := scanned hscan'
  refine ⟨fuel + t.extent, ?_⟩
  rcases build_returns hf htop hfound hsup htotal hready hempty buff hscan'
      (Nat.le_add_left _ fuel)
    with ⟨reply', c₁, hreserve', -, hloop, -⟩ | ⟨r', hr', -⟩
  · -- the loop returned on the other image
    rw [hpos', ← hpos, hreserve, Option.some.injEq, Prod.mk.injEq]
      at hreserve'
    have hitems : ([(usizeSize, root)] : List (Nat × Bytes))
        = [({ pos := usizeSize, path := [], tree := t } : Item)].map
            (Item.queued root) := by
      rw [List.map_singleton, Item.queued,
        show root ++ slashed [] = root from List.append_nil root]
    rw [hitems] at hvisits hloop
    obtain ⟨m₁', hagain⟩ := visits_alike hfound hat hat'
      (hpos ▸ hfits) (hpos' ▸ hfits') (fuel + t.extent) _ _ _ _ _ _ _ _
      (List.forall_mem_singleton.2 (.here usizeSize t hsup)) (fun _ _ => rfl)
      (fun _ _ => rfl) hvisits
    rw [createLoop_eq_visits, ← hreserve'.2, hagain] at hloop
    cases hloop
  · exact ⟨r', hr'⟩

end Build

/-- Where there is nothing to scan, it is the buffer of the chunk builder
that is in the first chunk, behind the length of the image. -/
theorem buff_published {ready : σ → Prop} {view : σ → UInt32 → Option Bytes}
    {room : UInt32 → Prop} (hf : ops.Faithful ready view room)
    (hroom : room 0) (hsup : t.supported = false) {s : σ} (hready : ready s)
    (buff : Mem) :
    ∃ r chunk, build ops openAt 1 (fun _ _ => 0) root t (new s buff) = some r
      ∧ view r.chunks.store 0 = some chunk
      ∧ chunk[usizeSize]? = some (buff usizeSize) := by
  obtain ⟨s', hflush, -, hview⟩ := hf.write s 0
    ((buff.write 0 (emptyImage.read 0 usizeSize)).read 0 chunkSizeBytes)
    hready hroom (Mem.length_read _ _ _)
  obtain ⟨r, hbuild, -, hstore⟩ :=
    @build_unsupported σ ops openAt root t hsup s s' buff _ hflush
  refine ⟨r, _, hbuild, by rw [hstore, hview, if_pos rfl], ?_⟩
  rw [Mem.getElem?_read (by decide), Nat.zero_add,
    Mem.write_outside _ (.inr (by rw [Mem.length_read]; decide))]

/-- The chunks that `build` stores are those of the tree: any two runs
that return store the same, whatever they found in the buffers from
`new char[]`, the one for the image (`heap`) and that of the chunk builder
(`buff`). -/
def Determined (ops : ChunkOps σ) (view : σ → UInt32 → Option Bytes)
    (openAt : Bytes → SourceFile) (root : Bytes) (t : SourceTree) (s : σ) :
    Prop :=
  ∀ fuel heap buff r fuel' heap' buff' r',
    build ops openAt fuel heap root t (new s buff) = some r →
    build ops openAt fuel' heap' root t (new s buff') = some r' →
    view r.chunks.store = view r'.chunks.store

/-- The memory with another byte in the padding of the first node. -/
def otherHeap (heap : Nat → Mem) : Nat → Mem := fun i a =>
  if i = 0 ∧ a = padding then (if heap 0 padding = 0 then 1 else 0)
  else heap i a

theorem otherHeap_padding (heap : Nat → Mem) :
    otherHeap heap 0 padding ≠ heap 0 padding := by
  rw [otherHeap, if_pos ⟨rfl, rfl⟩]
  split
  · next hzero =>
    rw [hzero]
    decide
  · next hzero => exact fun h => hzero h.symm

/-- On no static tree that fits into the chunks are the chunks stored
those of the tree alone, once any run of `build` returns. -/
theorem not_determined (ops : ChunkOps σ) (ready : σ → Prop)
    (view : σ → UInt32 → Option Bytes) (openAt : Bytes → SourceFile)
    (root : Bytes) (t : SourceTree) (hstatic : Static t)
    (hsize : totalLen t (sourceAt openAt root) ≤ 2 ^ 32 * chunkSizeBytes)
    (hf : ops.Faithful ready view fun id =>
      id.toNat ≤ totalLen t (sourceAt openAt root) / chunkSizeBytes)
    (s : σ) (hready : ready s) (hempty : ∀ id, view s id = none)
    (heap : Nat → Mem) (buff : Mem) (fuel : Nat) (r : Built σ)
    (hbuild : build ops openAt fuel heap root t (new s buff) = some r) :
    ¬ Determined ops view openAt root t s := by
  intro hdet
  cases hsup : t.supported with
  | true =>
      obtain ⟨fuel', r', hbuild'⟩ := build_alike hf hsize hstatic.found hsup
        (Nat.le_refl _) hready hempty hbuild (otherHeap heap)
      obtain ⟨chunk, hchunk, hbyte⟩ := padding_published hf hsize
        hstatic.found hsup (Nat.le_refl _) hready hempty hbuild
      obtain ⟨chunk', hchunk', hbyte'⟩ := padding_published hf hsize
        hstatic.found hsup (Nat.le_refl _) hready hempty hbuild'
      -- one chunk with two bytes at one place
      rw [hdet _ _ _ r _ _ _ r' hbuild hbuild', hchunk', Option.some.injEq]
        at hchunk
      rw [hchunk, hbyte, Option.some.injEq] at hbyte'
      exact otherHeap_padding heap hbyte'.symm
  | false =>
      obtain ⟨r₀, chunk, hbuild₀, hchunk, hbyte⟩ :=
        @buff_published t σ ops openAt root ready view _ hf (Nat.zero_le _)
          hsup s hready fun _ => 0
      obtain ⟨r₁, chunk', hbuild₁, hchunk', hbyte'⟩ :=
        @buff_published t σ ops openAt root ready view _ hf (Nat.zero_le _)
          hsup s hready fun _ => 1
      rw [hdet _ _ _ r₀ _ _ _ r₁ hbuild₀ hbuild₁, hchunk',
        Option.some.injEq] at hchunk
      rw [hchunk, hbyte, Option.some.injEq] at hbyte'
      exact absurd hbyte' (by decide)

/-- A directory with one file of two bytes can be built, whatever is found
in memory. -/
theorem oneFile_builds (heap : Nat → Mem) (buff : Mem) :
    ∃ fuel r, build MemoryStore.ops
      (fun _ => .opened { rest := [104, 105], script := [] }) fuel heap [115]
      (MetaFileSystem.oneFile []) (new .empty buff) = some r := by
  obtain ⟨b, hscan⟩ := @scanDfs_small heap (MetaFileSystem.oneFile [])
    (by decide) (by decide)
  have hsmall : totalLen (MetaFileSystem.oneFile [])
      (sourceAt (fun _ => .opened { rest := [104, 105], script := [] }) [115])
        ≤ 2 ^ 32 * chunkSizeBytes := by decide
  rcases build_spec (MemoryStore.faithful _) hsmall
      (MetaFileSystem.oneFile_static []).found (by decide) (Nat.le_refl _)
      MemoryStore.ready_empty (fun _ => rfl) buff hscan (Nat.le_refl _)
    with ⟨-, path, st, -, -, hunsound⟩ | ⟨r, hbuild, -⟩
  · have hsound : Sound (.opened { rest := [104, 105], script := [] }) :=
      fun c hc => absurd hc List.not_mem_nil
    exact absurd hsound hunsound
  · exact ⟨_, r, hbuild⟩

theorem not_determined_one_file :
    Static (MetaFileSystem.oneFile [])
      ∧ ¬ Determined MemoryStore.ops MemoryStore.chunks
          (fun _ => .opened { rest := [104, 105], script := [] }) [115]
          (MetaFileSystem.oneFile []) .empty := by
  obtain ⟨fuel, r, hbuild⟩ := oneFile_builds (fun _ _ => 0) fun _ => 0
  exact ⟨MetaFileSystem.oneFile_static [],
    not_determined MemoryStore.ops MemoryStore.Ready MemoryStore.chunks _ _ _
      (MetaFileSystem.oneFile_static []) (by decide)
      (MemoryStore.faithful _) .empty MemoryStore.ready_empty (fun _ => rfl)
      _ _ fuel r hbuild⟩

/-- Two builds of the directory, in memory of zeros and of ones, store
different first chunks. -/
theorem oneFile_chunks_differ :
    ∃ fuel r fuel' r',
      build MemoryStore.ops
          (fun _ => .opened { rest := [104, 105], script := [] }) fuel
          (fun _ _ => 0) [115] (MetaFileSystem.oneFile [])
          (new .empty fun _ => 0) = some r
        ∧ build MemoryStore.ops
          (fun _ => .opened { rest := [104, 105], script := [] }) fuel'
          (fun _ _ => 1) [115] (MetaFileSystem.oneFile [])
          (new .empty fun _ => 0) = some r'
        ∧ r.chunks.store.chunks 0 ≠ r'.chunks.store.chunks 0
        ∧ ¬ Determined MemoryStore.ops MemoryStore.chunks
          (fun _ => .opened { rest := [104, 105], script := [] }) [115]
          (MetaFileSystem.oneFile []) .empty := by
  obtain ⟨fuel, r, hbuild⟩ := oneFile_builds (fun _ _ => 0) fun _ => 0
  obtain ⟨fuel', r', hbuild'⟩ := oneFile_builds (fun _ _ => 1) fun _ => 0
  have hfound := (MetaFileSystem.oneFile_static []).found
  obtain ⟨chunk, hchunk, hbyte⟩ := padding_published
    (MemoryStore.faithful _) (Nat.le_refl _) hfound (by decide) (by decide)
    MemoryStore.ready_empty (fun _ => rfl) hbuild
  obtain ⟨chunk', hchunk', hbyte'⟩ := padding_published
    (MemoryStore.faithful _) (Nat.le_refl _) hfound (by decide) (by decide)
    MemoryStore.ready_empty (fun _ => rfl) hbuild'
  have hdiffer : r.chunks.store.chunks 0 ≠ r'.chunks.store.chunks 0 := by
    rw [hchunk, hchunk']
    rintro heq
    rw [Option.some.inj heq, hbyte'] at hbyte
    exact absurd hbyte (by decide)
  exact ⟨fuel, r, fuel', r', hbuild, hbuild', hdiffer, fun hdet =>
    hdiffer (congrFun (hdet _ _ _ r _ _ _ r' hbuild hbuild') 0)⟩

end MetaFSBuilder

end Distfs

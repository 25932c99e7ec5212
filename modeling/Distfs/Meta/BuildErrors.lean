/-
Which failures `MetaFSBuilder::build` reports, and what a build that
reports none has done.

# What is dropped

`build` drops what `scan_dfs` returns for the root, what the last `write`
returns and what `ChunkBuilder::build` returns; and the loop of
`create_chunks` takes an error of the store for one of the file that is
being added, if it is `NOT_FOUND` or `ACCESS_DENIED`. All other errors
end the build. `NoneDropped` says that none of the former happened, and
`build_complete_iff` that this is all there is.

# What a complete build has done

Every answer of the store was OK, so an honest store holds what one in
memory would (`Replay`): the image as it was in the buffer, and every
file that `add_file` delivered. This needs nothing of the source tree: it
is about the turns the loop took.
-/
import Distfs.Data.Replay
import Distfs.Meta.BuildLockstep
import Distfs.Meta.Built
import Distfs.Meta.Lookup

namespace Distfs

open SourceTree ChunkBuilder DataProvider

namespace MetaFSBuilder

section Loop

variable {σ : Type} {ops : ChunkOps σ} {openAt : Bytes → SourceFile}
  {size top : Nat}

/-- What the store answered to the loop. -/
structure LoopOutcome (b b' : ChunkBuilder (σ × List Answer))
    (err : ErrorCode) (as : List Answer) : Prop where
  log : b'.store.2 = b.store.2 ++ as
  tolerated : err = .ok → ∀ a ∈ as,
    a.err = .ok ∨ a.err = .notFound ∨ a.err = .accessDenied

variable {b b₁ b' : ChunkBuilder (σ × List Answer)} {err err' : ErrorCode}
  {own : Prop} {as bs : List Answer}

/-- Nothing was asked. -/
theorem LoopOutcome.none : LoopOutcome b b err [] :=
  ⟨(List.append_nil _).symm, fun _ a ha => by cases ha⟩

/-- A call that the loop goes on after. -/
theorem LoopOutcome.before (h : LoopOutcome b₁ b' err bs)
    (hcall : Outcome b b₁ err' own as)
    (herr : err' = .ok ∨ err' = .notFound ∨ err' = .accessDenied) :
    LoopOutcome b b' err (as ++ bs) := by
  refine ⟨?_, fun hok a ha => ?_⟩
  · rw [h.log, hcall.log, List.append_assoc]
  · rcases List.mem_append.1 ha with ha | ha
    · rcases hcall.other a ha with hok' | hsame
      · exact .inl hok'
      · rw [hsame]
        exact herr
    · exact h.tolerated hok a ha

/-- The loop over a store with a record. -/
theorem visits_outcome (fuel : Nat) :
    ∀ q m b vs err m' b',
      visits ops.logged openAt size fuel q m b = some (vs, err, m', b') →
      ∃ as, LoopOutcome b b' err as := by
  induction fuel with
  | zero =>
      intro q m b vs err m' b' h
      cases q with
      | nil =>
          cases h
          exact ⟨[], .none⟩
      | cons head q => cases h
  | succ fuel ih =>
      intro q m b vs err m' b' h
      cases q with
      | nil =>
          cases h
          exact ⟨[], .none⟩
      | cons head q =>
          obtain ⟨n, path⟩ := head
          have hin := fits_of_visits h
          cases hreg : sIsReg (Node.mode m n) with
          | true =>
              obtain ⟨reply, b₁, hadd, hturn⟩ := (visits_reg hin hreg).1 h
              obtain ⟨as, hout⟩ := addFile_outcome hadd
              rcases hturn with ⟨hgoes, us, rfl, hrest⟩
                | ⟨hends, rfl, rfl, rfl, rfl⟩
              · obtain ⟨bs, hloop⟩ := ih _ _ _ _ _ _ _ hrest
                exact ⟨as ++ bs, hloop.before hout hgoes⟩
              · exact ⟨as, hout.log, fun hok => absurd (.inl hok) hends⟩
          | false =>
              obtain ⟨us, q', hq, rfl, hrest⟩ := (visits_other hin hreg).1 h
              exact ih _ _ _ _ _ _ _ hrest

/-- What the turns of a loop that ended well have put behind `lo`, and
what they left where it was. -/
structure Added (openAt : Bytes → SourceFile) (vs : List Visited)
    (f f' : FlatFile) : Prop where
  cursor : f.cursor ≤ f'.cursor
  before : ∀ a bytes, a + bytes.length ≤ f.cursor → f.Holds a bytes →
    f'.Holds a bytes
  files : ∀ v ∈ vs, ∀ reply, v.added = some reply → reply.err = .ok →
    ∃ content, delivered (openAt v.path) = some content
      ∧ reply.length = content.length ∧ f.cursor ≤ reply.offset
      ∧ reply.offset + content.length ≤ f'.cursor
      ∧ f'.Holds reply.offset content

/-- The files of the turns are in the flat file. -/
theorem visits_added {τ : Type} {ops : ChunkOps τ} {ready : τ → Prop}
    {view : τ → UInt32 → Option Bytes}
    (hf : ops.Faithful ready view fun id => id.toNat ≤ top / chunkSizeBytes)
    (htop : top ≤ 2 ^ 32 * chunkSizeBytes) (fuel : Nat) :
    ∀ q m b f vs m' b', Refines ready view top b f →
      visits ops openAt size fuel q m b = some (vs, .ok, m', b') →
      f.cursor + addedLen openAt vs ≤ top →
      ∃ f', Refines ready view top b' f' ∧ Added openAt vs f f' := by
  have hdone : ∀ f : FlatFile, Added openAt [] f f := fun f =>
    ⟨Nat.le_refl _, fun _ _ _ h => h, fun v hv => by cases hv⟩
  have hlast : top < 2 ^ 64 := by
    have := chunkSizeBytes_eq
    omega
  induction fuel with
  | zero =>
      intro q m b f vs m' b' hrefines h hlen
      cases q with
      | nil =>
          cases h
          exact ⟨f, hrefines, hdone f⟩
      | cons head q => cases h
  | succ fuel ih =>
      intro q m b f vs m' b' hrefines h hlen
      cases q with
      | nil =>
          cases h
          exact ⟨f, hrefines, hdone f⟩
      | cons head q =>
          obtain ⟨n, path⟩ := head
          rcases visits_cons h with
            ⟨reply, b₁, hadd, ⟨us, m₁, rfl, hrest⟩ | hne⟩
              | ⟨us, q', rfl, hrest⟩
          · have hlen' : addedLen openAt
                ({ pos := n, path := path, added := some reply } :: us)
              = sourceLen (openAt path) + addedLen openAt us := rfl
            rw [hlen'] at hlen
            rcases hrefines.addFile hf htop (openAt path) (by omega) hlast
              with ⟨hnone, -⟩
                | ⟨reply', b₁', bytes, hadd', hrefines₁, hbytes, hok, hfail⟩
            · rw [hnone] at hadd
              cases hadd
            · rw [hadd', Option.some.injEq, Prod.mk.injEq] at hadd
              obtain ⟨rfl, rfl⟩ := hadd
              obtain ⟨f', hrefines', hadded⟩ := ih q m₁ b₁' _ us m' b'
                hrefines₁ hrest (by rw [FlatFile.cursor_put]; omega)
              have hcursor := hadded.cursor
              rw [FlatFile.cursor_put] at hcursor
              refine ⟨f', hrefines', by omega, fun a bs hbs hholds => ?_, ?_⟩
              · exact hadded.before a bs (by rw [FlatFile.cursor_put]; omega)
                  (hholds.put (.inl hbs))
              · intro v hv reply hreply hrok
                rcases List.mem_cons.1 hv with rfl | hv
                · -- the file of this turn
                  obtain rfl : reply' = reply := Option.some.inj hreply
                  cases hcontent : delivered (openAt path) with
                  | none =>
                      rcases hfail hcontent with hnf | had
                      · rw [hnf] at hrok
                        cases hrok
                      · rw [had] at hrok
                        cases hrok
                  | some content =>
                      obtain ⟨rfl, rfl⟩ := hok content hcontent
                      refine ⟨bytes, rfl, rfl, Nat.le_refl _, hcursor, ?_⟩
                      exact hadded.before _ _ (Nat.le_refl _)
                        (FlatFile.holds_put f bytes)
                · obtain ⟨content, hcontent, hl, hlo, hhi, hholds⟩ :=
                    hadded.files v hv reply hreply hrok
                  rw [FlatFile.cursor_put] at hlo
                  exact ⟨content, hcontent, hl, by omega, hhi, hholds⟩
          · exact absurd rfl hne
          · have hlen' : addedLen openAt
                ({ pos := n, path := path, added := none } :: us)
              = 0 + addedLen openAt us := rfl
            rw [hlen'] at hlen
            obtain ⟨f', hrefines', hadded⟩ := ih q' m b f us m' b' hrefines
              hrest (by omega)
            refine ⟨f', hrefines', hadded.cursor, hadded.before, ?_⟩
            intro v hv reply hreply hrok
            rcases List.mem_cons.1 hv with rfl | hv
            · cases hreply
            · exact hadded.files v hv reply hreply hrok

end Loop

-- ======================================================== the build

section Build

variable {σ : Type} {ops : ChunkOps σ} {ready : σ → Prop}
  {view : σ → UInt32 → Option Bytes} {room : UInt32 → Prop}
  {openAt : Bytes → SourceFile} {heap : Nat → Mem} {root : Bytes}
  {t : SourceTree} {fuel top : Nat} {buff : Mem} {s : σ}

/-- The chunks hold the image, and every file that was added. -/
def Holding (chunks : UInt32 → Option Bytes) (openAt : Bytes → SourceFile)
    (image : Bytes) (vs : List Visited) : Prop :=
  Covers chunks 0 image
    ∧ ∀ v ∈ vs, ∀ reply, v.added = some reply → reply.err = .ok →
      ∃ content, delivered (openAt v.path) = some content
        ∧ reply.length = content.length
        ∧ Covers chunks reply.offset content

/-- A build whose loop ended well leaves them in a store that never
fails. -/
theorem holding_of_faithful
    (hf : ops.Faithful ready view fun id => id.toNat ≤ top / chunkSizeBytes)
    (htop : top ≤ 2 ^ 32 * chunkSizeBytes) (hready : ready s)
    (hwhole : ∀ id c, view s id = some c → c.length = chunkSizeBytes)
    {q : Queued σ}
    (hqueued : queued ops openAt fuel heap root t (new s buff) = some q)
    (hok : q.err = .ok) (hlen : q.size + addedLen openAt q.visited ≤ top)
    {reply : Reply} {b₁ b₂ : ChunkBuilder σ} {err : ErrorCode}
    (hwrite : q.chunks.write ops q.start (q.data.read 0 q.size)
      = some (reply, b₁))
    (hbuild : b₁.build ops = some (err, b₂)) :
    Holding (view b₂.store) openAt (q.data.read 0 q.size) q.visited := by
  have hlast : top < 2 ^ 64 := by
    have := chunkSizeBytes_eq
    omega
  have hnew : Refines ready view top (new s buff) .empty :=
    refines_new_of_whole hready hwhole buff
  obtain ⟨-, b, reply', chunks, -, hsize, hreserve, -, hstart, hvisits⟩ :=
    queued_ok_iff.1 ⟨hqueued, hok⟩
  -- the space for the image
  have hle : FlatFile.empty.cursor + b.currentPos ≤ top := by
    show 0 + b.currentPos ≤ top
    omega
  obtain ⟨chunks', hreserve', hrefines₁⟩ :=
    hnew.serve hf htop (r := .reserve b.currentPos) hle hlast
  rw [serve, hreserve, Option.some.injEq, Prod.mk.injEq] at hreserve'
  obtain ⟨rfl, rfl⟩ := hreserve'
  have hcursor : (flat FlatFile.empty (.reserve b.currentPos)).cursor
      = b.currentPos := Nat.zero_add _
  -- the files
  obtain ⟨f, hrefines₂, hadded⟩ := visits_added hf htop fuel _ _ _ _ _ _ _
    hrefines₁ hvisits (by rw [hcursor, ← hsize]; exact hlen)
  -- the image
  have hle' : 0 + (q.data.read 0 q.size).length ≤ top := by
    rw [Mem.length_read]
    omega
  obtain ⟨b₁', hwrite', hrefines₃⟩ := hrefines₂.serve hf htop
    (r := .write 0 (q.data.read 0 q.size)) hle' hlast
  rw [hstart] at hwrite
  have hzero : (flatReply .empty (.reserve b.currentPos)).offset = 0 := rfl
  rw [hzero] at hwrite
  rw [serve, hwrite, Option.some.injEq, Prod.mk.injEq] at hwrite'
  obtain ⟨-, rfl⟩ := hwrite'
  obtain ⟨b₂', hbuild', -, hstored, -⟩ := hrefines₃.build hf
  rw [hbuild, Option.some.injEq, Prod.mk.injEq] at hbuild'
  obtain ⟨-, rfl⟩ := hbuild'
  refine ⟨covers_of_holds hstored (FlatFile.holds_put _ _), ?_⟩
  intro v hv reply hreply hrok
  obtain ⟨content, hcontent, hl, hlo, -, hholds⟩ :=
    hadded.files v hv reply hreply hrok
  refine ⟨content, hcontent, hl, covers_of_holds hstored ?_⟩
  refine FlatFile.Holds.put hholds (.inr ?_)
  rw [Mem.length_read]
  show 0 + q.size ≤ reply.offset
  omega

/-- What the store answered until the queue was empty. -/
theorem queued_outcome {q : Queued (σ × List Answer)}
    (h : queued ops.logged openAt fuel heap root t (new (s, []) buff)
      = some q) (hok : q.err = .ok) :
    ∀ a ∈ q.chunks.store.2,
      a.err = .ok ∨ a.err = .notFound ∨ a.err = .accessDenied := by
  obtain ⟨-, b, reply, chunks, -, -, hreserve, herr, -, hvisits⟩ :=
    queued_ok_iff.1 ⟨h, hok⟩
  obtain ⟨as, hout⟩ := reserve_outcome hreserve
  obtain ⟨bs, hloop⟩ := visits_outcome fuel _ _ _ _ _ _ _ hvisits
  have hall := hloop.before hout (.inl herr)
  have hlog : q.chunks.store.2 = as ++ bs := hall.log
  rw [hlog]
  exact hall.tolerated rfl

/-- What a build that reports success has done. -/
structure Complete (ops : ChunkOps σ) (openAt : Bytes → SourceFile)
    (heap : Nat → Mem) (t : SourceTree) (s : σ)
    (q : Queued (σ × List Answer)) (r : Built (σ × List Answer)) : Prop where
  scanned : ∃ b, scanDfs heap t (start heap) = some (b, usizeSize)
    ∧ At b.data usizeSize t
  answers : ∀ a ∈ r.chunks.store.2, a.err = .ok
  held : ∀ ready view room, ops.Honest ready view room → ready s →
    (∀ id c, view s id = some c → c.length = chunkSizeBytes) →
    (∀ a ∈ r.chunks.store.2, room a.id) →
    q.size + addedLen openAt q.visited ≤ 2 ^ 32 * chunkSizeBytes →
    Holding (view r.chunks.store.1) openAt (r.data.read 0 r.size) q.visited

/-- None of the failures happened that `build` does not report. The
answers that come after those to the loop are those to the last `write`
and to `ChunkBuilder::build`. -/
structure NoneDropped (t : SourceTree) (q : Queued (σ × List Answer))
    (r : Built (σ × List Answer)) : Prop where
  root : t.supported = true
  adding : ∀ a ∈ q.chunks.store.2,
    a.err ≠ .notFound ∧ a.err ≠ .accessDenied
  writing : ∀ as, r.chunks.store.2 = q.chunks.store.2 ++ as →
    ∀ a ∈ as, a.err = .ok

/-- If `scan_dfs` returned the place for the first node, there was
something to scan. -/
theorem supported_of_scanDfs {b b' : MetaFSBuilder}
    (h : scanDfs heap t b = some (b', usizeSize)) : t.supported = true := by
  cases t with
  | gone => cases h
  | node st xattrs target entries =>
      by_contra hsup
      have hsup' : ¬ isSupported st.mode.toNat = true := hsup
      rw [scanDfs, if_pos hsup', Option.some.injEq, Prod.mk.injEq] at h
      cases h.2

theorem scanned_of_supported {b : MetaFSBuilder} {offset : Nat}
    (hsup : t.supported = true)
    (h : scanDfs heap t (start heap) = some (b, offset)) :
    offset = usizeSize ∧ At b.data usizeSize t := by
  rcases scanDfs_spec heap t (start heap)
      (show usizeSize ≤ chunkSizeBytes by decide)
    with ⟨b', hsome, -, hat⟩ | ⟨hnone, -⟩
  · rw [h, hsup, Option.some.injEq, Prod.mk.injEq] at hsome
    obtain ⟨rfl, rfl⟩ := hsome
    exact ⟨rfl, hat⟩
  · rw [h] at hnone
    cases hnone

section Finished

variable {q : Queued (σ × List Answer)}
  {b₁ b₂ : ChunkBuilder (σ × List Answer)} {reply : Reply}
  {err : ErrorCode}
  (hqueued : queued ops.logged openAt fuel heap root t (new (s, []) buff)
    = some q)
  (hok : q.err = .ok)
  (hwrite : q.chunks.write ops.logged q.start (q.data.read 0 q.size)
    = some (reply, b₁))
  (hflush : b₁.build ops.logged = some (err, b₂))

include hwrite hflush in
/-- The record goes on with the answers to the last `write` and to
`ChunkBuilder::build`, and these are OK exactly if the two calls are. -/
theorem finished_answers :
    ∃ as, b₂.store.2 = q.chunks.store.2 ++ as
      ∧ ((∀ a ∈ as, a.err = .ok) ↔ reply.err = .ok ∧ err = .ok) := by
  obtain ⟨as, hout⟩ := write_outcome hwrite
  obtain ⟨bs, hout'⟩ := build_outcome hflush
  refine ⟨as ++ bs, ?_, ?_⟩
  · rw [hout'.log, hout.log, List.append_assoc]
  · rw [List.forall_mem_append]
    constructor
    · rintro ⟨has, hbs⟩
      exact ⟨(hout.reason has).resolve_right not_false,
        (hout'.reason hbs).resolve_right not_false⟩
    · rintro ⟨hreply, herr⟩
      refine ⟨fun a ha => ?_, fun a ha => ?_⟩
      · exact (hout.other a ha).elim id fun h => h.trans hreply
      · exact (hout'.other a ha).elim id fun h => h.trans herr

include hqueued hok hwrite hflush in
/-- If all answers were OK, an honest store holds everything. -/
theorem holding_of_answers (hops : ops.Proper)
    (hall : ∀ a ∈ b₂.store.2, a.err = .ok)
    (hh : ops.Honest ready view room) (hready : ready s)
    (hwhole : ∀ id c, view s id = some c → c.length = chunkSizeBytes)
    (hroom : ∀ a ∈ b₂.store.2, room a.id)
    (hlen : q.size + addedLen openAt q.visited
      ≤ 2 ^ 32 * chunkSizeBytes) :
    Holding (view b₂.store.1) openAt (q.data.read 0 q.size) q.visited := by
  have hfine : ∀ a ∈ b₂.store.2, a.err = .ok ∧ room a.id :=
    fun a ha => ⟨hall a ha, hroom a ha⟩
  have hstart : Mirrors ready view s
      { chunks := view s, ids := ops.available s } :=
    ⟨hready, rfl, fun id => hh.available s id hready⟩
  -- the same build over a store in memory
  have hf := hh.follows hops
  have hstep := (queued_lockstep hf hqueued).trans
    ((write_lockstep hf hwrite).trans
      (ChunkBuilder.build_lockstep hf hflush))
  obtain ⟨m, ⟨x, hq, y, hw, hb⟩, hm⟩ := (hstep hfine).2 _ hstart
  rw [hm.view]
  exact holding_of_faithful (MemoryStore.faithful _) (Nat.le_refl _)
    hstart.ids hwhole hq hok hlen hw hb

include hwrite hflush in
/-- A complete build has dropped nothing. -/
theorem noneDropped_of_complete {r : Built (σ × List Answer)}
    (hr : r.chunks = b₂) (h : Complete ops openAt heap t s q r) :
    NoneDropped t q r := by
  obtain ⟨as, hlog, -⟩ := finished_answers hwrite hflush
  have hall := h.answers
  rw [hr, hlog, List.forall_mem_append] at hall
  obtain ⟨b, hscan, -⟩ := h.scanned
  refine ⟨supported_of_scanDfs hscan, fun a ha => ?_, fun as' has' => ?_⟩
  · rw [hall.1 a ha]
    exact ⟨by decide, by decide⟩
  · rw [hr, hlog] at has'
    rw [← List.append_cancel_left has']
    exact hall.2

include hqueued hok hwrite hflush in
/-- A build that has dropped nothing is complete. -/
theorem complete_of_noneDropped (hops : ops.Proper)
    {r : Built (σ × List Answer)} (hdata : r.data = q.data)
    (hsize : r.size = q.size) (hr : r.chunks = b₂)
    (h : NoneDropped t q r) : Complete ops openAt heap t s q r := by
  obtain ⟨hsup, hadding, hwriting⟩ := h
  obtain ⟨as, hlog, -⟩ := finished_answers hwrite hflush
  have hall : ∀ a ∈ b₂.store.2, a.err = .ok := by
    rw [hlog, List.forall_mem_append]
    refine ⟨fun a ha => ?_, hwriting as (by rw [hr, hlog])⟩
    -- the loop goes on after these two errors only
    rcases queued_outcome hqueued hok a ha with herr | herr | herr
    · exact herr
    · exact absurd herr (hadding a ha).1
    · exact absurd herr (hadding a ha).2
  obtain ⟨-, b, -, -, hscan, -⟩ := queued_ok_iff.1 ⟨hqueued, hok⟩
  obtain ⟨hroot, hat⟩ := scanned_of_supported hsup hscan
  rw [hroot] at hscan
  refine ⟨⟨b, hscan, hat⟩, by rw [hr]; exact hall, ?_⟩
  intro ready view room hh hready hwhole hroom hlen
  rw [hr] at hroom ⊢
  rw [hdata, hsize]
  exact holding_of_answers hqueued hok hwrite hflush hops hall hh hready
    hwhole hroom hlen

end Finished

theorem proper_memory : MemoryStore.ops.Proper := by
  intro s id t h
  unfold MemoryStore.ops at h
  simp only at h
  split at h
  · cases h
  · cases h

/-- A build of a path that does not exist, in cleared memory. -/
theorem build_gone (openAt : Bytes → SourceFile) (buff : Mem) :
    ∃ r, build MemoryStore.ops.logged openAt 1 (fun _ _ => 0) [] .gone
        (new (.empty, []) buff) = some r ∧ r.err = .ok := by
  obtain ⟨r, hbuild, hok, -⟩ := @build_unsupported _ MemoryStore.ops.logged
    openAt [] .gone rfl (.empty, []) _ buff _ rfl
  exact ⟨r, hbuild, hok⟩

/-- A build that reports success is complete, exactly if there was
nothing it does not report. -/
theorem build_complete_iff (hops : ops.Proper)
    {r : Built (σ × List Answer)}
    (hbuild : build ops.logged openAt fuel heap root t (new (s, []) buff)
      = some r) :
    (r.err = .ok → ∃ q,
        queued ops.logged openAt fuel heap root t (new (s, []) buff) = some q
          ∧ Complete ops openAt heap t s q r)
      ↔ ∀ q, queued ops.logged openAt fuel heap root t (new (s, []) buff)
          = some q → q.err = .ok → NoneDropped t q r := by
  obtain ⟨q, hqueued, ⟨hfailed, herr⟩
    | ⟨hok, reply, b₁, err, b₂, hwrite, hflush, rfl⟩⟩ := build_cases hbuild
  · refine iff_of_true (fun hrok => ?_) fun q' hq' hok' => ?_
    · exact absurd (herr ▸ hrok) hfailed
    · obtain rfl := Option.some.inj (hqueued.symm.trans hq')
      exact absurd hok' hfailed
  · constructor
    · intro hcomplete q' hq' _
      obtain ⟨q'', hq'', hdone⟩ := hcomplete rfl
      obtain rfl := Option.some.inj (hqueued.symm.trans hq')
      obtain rfl := Option.some.inj (hqueued.symm.trans hq'')
      exact noneDropped_of_complete hwrite hflush rfl hdone
    · intro hnone _
      exact ⟨q, hqueued, complete_of_noneDropped hqueued hok hwrite hflush
        hops rfl rfl rfl (hnone q hqueued hok)⟩

/-- A build over a store in memory drops nothing. -/
theorem noneDropped_memory (hsup : t.supported = true)
    {r : Built (MemoryStore × List Answer)}
    (hbuild : build MemoryStore.ops.logged openAt fuel heap root t
      (new (.empty, []) buff) = some r)
    {q : Queued (MemoryStore × List Answer)}
    (hqueued : queued MemoryStore.ops.logged openAt fuel heap root t
      (new (.empty, []) buff) = some q)
    (hok : q.err = .ok) : NoneDropped t q r := by
  obtain ⟨q', hqueued', ⟨hfailed, -⟩
    | ⟨-, reply, b₁, err, b₂, hwrite, hflush, rfl⟩⟩ := build_cases hbuild
  · obtain rfl := Option.some.inj (hqueued.symm.trans hqueued')
    exact absurd hok hfailed
  · obtain rfl := Option.some.inj (hqueued.symm.trans hqueued')
    have hall := (build_lockstep MemoryStore.follows_ok hbuild).invariant
      ⟨MemoryStore.ready_empty, fun a ha => by cases ha⟩
    obtain ⟨as, hlog, -⟩ := finished_answers hwrite hflush
    have hanswers := hall.2
    rw [hlog, List.forall_mem_append] at hanswers
    refine ⟨hsup, fun a ha => ?_, fun as' has' => ?_⟩
    · rw [hanswers.1 a ha]
      exact ⟨by decide, by decide⟩
    · rw [hlog] at has'
      rw [← List.append_cancel_left has']
      exact hanswers.2

/-- A build of a directory with a file of two bytes. -/
theorem build_one_file :
    ∃ r, build MemoryStore.ops.logged
        (fun _ => .opened ⟨[104, 105], []⟩) 200
        (fun _ _ => 0) [115] (MetaFileSystem.oneFile [])
        (new (.empty, []) fun _ => 0) = some r ∧ r.err = .ok := by
  obtain ⟨b, hscan⟩ := @scanDfs_small (fun _ _ => 0)
    (MetaFileSystem.oneFile []) (by decide) (by decide)
  have hsmall : totalLen (MetaFileSystem.oneFile [])
      (sourceAt (fun _ => .opened ⟨[104, 105], []⟩) [115])
        ≤ 2 ^ 32 * chunkSizeBytes := by decide
  rcases build_spec (MemoryStore.faithful _) hsmall
      (MetaFileSystem.oneFile_static []).found (by decide) (Nat.le_refl _)
      MemoryStore.ready_empty (fun _ => rfl) (fun _ => 0) hscan
      (show (MetaFileSystem.oneFile []).extent ≤ 200 by decide)
    with ⟨-, path, st, -, -, hunsound⟩ | ⟨r, hbuild, -, hleaves⟩
  · exact absurd (fun c hc => absurd hc List.not_mem_nil) hunsound
  · obtain ⟨s, hlogged, -⟩ := (build_lockstep
      (ChunkOps.Follows.logged MemoryStore.ops) hbuild trivial).2
        (.empty, []) rfl
    exact ⟨_, hlogged, hleaves.err⟩

/-- A build of a directory with a file, and that of a path that does not
exist: the first one drops nothing, and is complete. -/
theorem build_complete_iff_small :
    (∃ r, build MemoryStore.ops.logged (fun _ => .opened ⟨[104, 105], []⟩) 200
          (fun _ _ => 0) [115] (MetaFileSystem.oneFile [])
          (new (.empty, []) fun _ => 0) = some r
        ∧ r.err = .ok
        ∧ ∃ q, queued MemoryStore.ops.logged
              (fun _ => .opened ⟨[104, 105], []⟩) 200 (fun _ _ => 0) [115]
              (MetaFileSystem.oneFile [])
              (new (.empty, []) fun _ => 0) = some q
            ∧ Complete MemoryStore.ops (fun _ => .opened ⟨[104, 105], []⟩)
              (fun _ _ => 0) (MetaFileSystem.oneFile []) .empty q r)
      ∧ ∃ r, build MemoryStore.ops.logged (fun _ => .notFound) 1
            (fun _ _ => 0) [] .gone (new (.empty, []) fun _ => 0) = some r
        ∧ ((r.err = .ok → ∃ q,
            queued MemoryStore.ops.logged (fun _ => .notFound) 1
                (fun _ _ => 0) [] .gone (new (.empty, []) fun _ => 0) = some q
              ∧ Complete MemoryStore.ops (fun _ => .notFound) (fun _ _ => 0)
                .gone .empty q r)
          ↔ ∀ q, queued MemoryStore.ops.logged (fun _ => .notFound) 1
              (fun _ _ => 0) [] .gone (new (.empty, []) fun _ => 0) = some q →
            q.err = .ok → NoneDropped .gone q r) := by
  constructor
  · obtain ⟨r, hbuild, hok⟩ := build_one_file
    refine ⟨r, hbuild, hok, (build_complete_iff proper_memory hbuild).2
      (fun q hqueued hq => ?_) hok⟩
    exact noneDropped_memory rfl hbuild hqueued hq
  · obtain ⟨r, hbuild, -⟩ := build_gone (fun _ => .notFound) fun _ => 0
    exact ⟨r, hbuild, build_complete_iff proper_memory hbuild⟩

/-- The build of a path that does not exist reports success. -/
theorem missing_root_built :
    ∃ r, build MemoryStore.ops.logged (fun _ => .notFound) 1 (fun _ _ => 0) []
        .gone (new (.empty, []) fun _ => 0) = some r
      ∧ r.err = .ok
      ∧ ¬ ∃ q, queued MemoryStore.ops.logged (fun _ => .notFound) 1
            (fun _ _ => 0) [] .gone (new (.empty, []) fun _ => 0) = some q
          ∧ Complete MemoryStore.ops (fun _ => .notFound) (fun _ _ => 0) .gone
            .empty q r := by
  obtain ⟨r, hbuild, hok⟩ := build_gone (fun _ => .notFound) fun _ => 0
  refine ⟨r, hbuild, hok, ?_⟩
  rintro ⟨q, -, hcomplete⟩
  obtain ⟨b, hscan, -⟩ := hcomplete.scanned
  cases supported_of_scanDfs hscan

end Build

end MetaFSBuilder

end Distfs

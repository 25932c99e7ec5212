/-
What the queue loop of `create_chunks` does, turn by turn.

`visits` is the loop with a record of the nodes it takes from the queue
and of what it asked the chunk builder for each. `queued` is `build` up
to the end of that loop, before the image is written back.
-/
import Distfs.Data.BuilderRefinement
import Distfs.Meta.CreateChunks

namespace Distfs

/-- A turn of the loop: the node, the path it was queued with, and the
reply of `add_file`, if the loop called it. -/
structure Visited where
  pos : Nat
  path : Bytes
  added : Option Reply

/-- `build` when its queue is empty: what `scan_dfs` returned, the turns
of the loop and its error code, the image and its length, and the address
reserved for it. -/
structure Queued (σ : Type) where
  root : Nat
  visited : List Visited
  err : ErrorCode
  data : Mem
  size : Nat
  start : Nat
  chunks : ChunkBuilder σ

namespace MetaFSBuilder

variable {σ : Type} (ops : ChunkOps σ) (openAt : Bytes → SourceFile)

/-- What the rest of the loop makes of it, with one turn before. -/
def noting {ρ : Type} (v : Visited) :
    Option (List Visited × ρ) → Option (List Visited × ρ)
  | none => none
  | some (vs, r) => some (v :: vs, r)

/-- The loop of `create_chunks`, with its turns. -/
def visits (size : Nat) :
    Nat → List (Nat × Bytes) → Mem → ChunkBuilder σ →
      Option (List Visited × ErrorCode × Mem × ChunkBuilder σ)
  | _, [], m, chunks => some ([], .ok, m, chunks)
  | 0, _ :: _, _, _ => none
  | fuel + 1, (n, path) :: q, m, chunks =>
      if size < n + nodeSize then none
      else if sIsReg (Node.mode m n) then
        match chunks.addFile ops (openAt path) with
        | none => none
        | some (reply, chunks) =>
            let v : Visited := { pos := n, path := path, added := some reply }
            if reply.err = .ok then
              noting v (visits size fuel q
                (setFile m n reply.offset reply.length) chunks)
            else
              let m := setFile m n (2 ^ 64 - 1) 0
              if reply.err = .notFound ∨ reply.err = .accessDenied then
                noting v (visits size fuel q m chunks)
              else some ([v], reply.err, m, chunks)
      else
        let v : Visited := { pos := n, path := path, added := none }
        if sIsDir (Node.mode m n) then
          match queueEntries m size (Node.dataOffset m n) path
              (Node.length m n) 0 with
          | none => none
          | some children =>
              noting v (visits size fuel (q ++ children) m chunks)
        else noting v (visits size fuel q m chunks)

/-- `build` up to the end of the queue loop. -/
def queued (fuel : Nat) (heap : Nat → Mem) (root : Bytes) (t : SourceTree)
    (chunks : ChunkBuilder σ) : Option (Queued σ) :=
  match scanDfs heap t (start heap) with
  | none => none
  | some (b, offset) =>
      let m := b.data.writeLe 0 usizeSize b.currentPos
      match chunks.reserve ops b.currentPos with
      | none => none
      | some (reply, chunks) =>
          if reply.err ≠ .ok then
            some { root := offset, visited := [], err := reply.err, data := m
                   size := b.currentPos, start := reply.offset
                   chunks := chunks }
          else
            match visits ops openAt b.dataSize.1 fuel [(usizeSize, root)] m
                chunks with
            | none => none
            | some (vs, err, m, chunks) =>
                some { root := offset, visited := vs, err := err, data := m
                       size := b.currentPos, start := reply.offset
                       chunks := chunks }

variable {ops : ChunkOps σ} {openAt : Bytes → SourceFile}

/-- How many bytes the files of the turns have. -/
def addedLen (openAt : Bytes → SourceFile) (vs : List Visited) : Nat :=
  (vs.map fun v =>
    if v.added.isSome then ChunkBuilder.sourceLen (openAt v.path) else 0).sum

theorem noting_eq_some {ρ : Type} {v : Visited} {vs : List Visited} {x : ρ}
    {r : Option (List Visited × ρ)} :
    noting v r = some (vs, x) ↔ ∃ us, vs = v :: us ∧ r = some (us, x) := by
  cases r with
  | none => simp [noting]
  | some r =>
      obtain ⟨us, y⟩ := r
      simp only [noting, Option.some.injEq, Prod.mk.injEq]
      constructor
      · rintro ⟨rfl, rfl⟩
        exact ⟨us, rfl, rfl, rfl⟩
      · rintro ⟨us', rfl, rfl, rfl⟩
        exact ⟨rfl, rfl⟩

theorem map_noting {ρ : Type} (v : Visited)
    (r : Option (List Visited × ρ)) :
    (noting v r).map Prod.snd = r.map Prod.snd := by
  cases r <;> rfl

/-- The record of the turns restricts nothing. -/
theorem createLoop_eq_visits (size fuel : Nat) :
    ∀ q m (chunks : ChunkBuilder σ),
      createLoop ops openAt size fuel q m chunks
        = (visits ops openAt size fuel q m chunks).map Prod.snd := by
  induction fuel with
  | zero =>
      intro q m chunks
      cases q <;> rfl
  | succ fuel ih =>
      intro q m chunks
      cases q with
      | nil => rfl
      | cons head q =>
          obtain ⟨n, path⟩ := head
          unfold createLoop visits
          by_cases hsize : size < n + nodeSize
          · rw [if_pos hsize, if_pos hsize]
            rfl
          · rw [if_neg hsize, if_neg hsize]
            by_cases hreg : sIsReg (Node.mode m n) = true
            · rw [if_pos hreg, if_pos hreg]
              cases chunks.addFile ops (openAt path) with
              | none => rfl
              | some r =>
                  obtain ⟨reply, chunks⟩ := r
                  simp only
                  split
                  · rw [ih, map_noting]
                  · split
                    · rw [ih, map_noting]
                    · rfl
            · rw [if_neg hreg, if_neg hreg]
              simp only
              split
              · cases queueEntries m size (Node.dataOffset m n) path
                  (Node.length m n) 0 with
                | none => rfl
                | some children =>
                    simp only
                    rw [ih, map_noting]
              · rw [ih, map_noting]

-- ============================================================ one turn

/-- After a file with this error code the loop goes on. -/
def Tolerated (err : ErrorCode) : Prop :=
  err = .ok ∨ err = .notFound ∨ err = .accessDenied

/-- The image after a turn that called `add_file`. -/
def answered (m : Mem) (n : Nat) (reply : Reply) : Mem :=
  if reply.err = .ok then setFile m n reply.offset reply.length
  else setFile m n (2 ^ 64 - 1) 0

/-- The queue after a turn that did not. -/
def queueAfter (m : Mem) (size n : Nat) (path : Bytes)
    (q : List (Nat × Bytes)) : Option (List (Nat × Bytes)) :=
  if sIsDir (Node.mode m n) then
    (queueEntries m size (Node.dataOffset m n) path (Node.length m n) 0).map
      (q ++ ·)
  else some q

section Turn

variable {size fuel n : Nat} {path : Bytes} {q : List (Nat × Bytes)}
  {m m' : Mem} {b b' : ChunkBuilder σ} {vs : List Visited} {err : ErrorCode}

/-- The node of a turn is in the image. -/
theorem fits_of_visits
    (h : visits ops openAt size (fuel + 1) ((n, path) :: q) m b
      = some (vs, err, m', b')) : ¬ size < n + nodeSize := by
  intro hsize
  rw [visits, if_pos hsize] at h
  cases h

/-- A turn at a regular file. -/
theorem visits_reg (hin : ¬ size < n + nodeSize)
    (hreg : sIsReg (Node.mode m n) = true) :
    visits ops openAt size (fuel + 1) ((n, path) :: q) m b
        = some (vs, err, m', b')
      ↔ ∃ reply b₁, b.addFile ops (openAt path) = some (reply, b₁)
        ∧ ((Tolerated reply.err
            ∧ ∃ us, vs = { pos := n, path := path, added := some reply } :: us
              ∧ visits ops openAt size fuel q (answered m n reply) b₁
                = some (us, err, m', b'))
          ∨ (¬ Tolerated reply.err
            ∧ vs = [{ pos := n, path := path, added := some reply }]
            ∧ err = reply.err ∧ m' = answered m n reply ∧ b' = b₁)) := by
  rw [visits, if_neg hin, if_pos hreg]
  cases b.addFile ops (openAt path) with
  | none => simp
  | some r =>
      obtain ⟨reply, b₁⟩ := r
      simp only [Option.some.injEq, Prod.mk.injEq, and_assoc, exists_and_left,
        exists_eq_left', answered]
      by_cases hok : reply.err = .ok
      · have hgoes : Tolerated reply.err := .inl hok
        simp only [if_pos hok, noting_eq_some, hgoes, true_and, not_true,
          false_and, or_false]
      · simp only [if_neg hok]
        by_cases hskip : reply.err = .notFound ∨ reply.err = .accessDenied
        · have hgoes : Tolerated reply.err := .inr hskip
          simp only [if_pos hskip, noting_eq_some, hgoes, true_and, not_true,
            false_and, or_false]
        · have hends : ¬ Tolerated reply.err := fun h =>
            hskip (h.resolve_left hok)
          simp only [if_neg hskip, hends, false_and, false_or, true_and,
            not_false_eq_true, Option.some.injEq, Prod.mk.injEq]
          constructor
          · rintro ⟨rfl, rfl, rfl, rfl⟩
            exact ⟨rfl, rfl, rfl, rfl⟩
          · rintro ⟨rfl, rfl, rfl, rfl⟩
            exact ⟨rfl, rfl, rfl, rfl⟩

/-- A turn at another node. -/
theorem visits_other (hin : ¬ size < n + nodeSize)
    (hreg : sIsReg (Node.mode m n) = false) :
    visits ops openAt size (fuel + 1) ((n, path) :: q) m b
        = some (vs, err, m', b')
      ↔ ∃ us q', queueAfter m size n path q = some q'
        ∧ vs = { pos := n, path := path, added := none } :: us
        ∧ visits ops openAt size fuel q' m b = some (us, err, m', b') := by
  rw [visits, if_neg hin, if_neg (by rw [hreg]; simp), queueAfter]
  simp only
  by_cases hdir : sIsDir (Node.mode m n) = true
  · rw [if_pos hdir, if_pos hdir]
    cases queueEntries m size (Node.dataOffset m n) path
        (Node.length m n) 0 with
    | none => simp
    | some children => simp [noting_eq_some]
  · rw [if_neg hdir, if_neg hdir, noting_eq_some]
    simp

/-- One turn, as far as the chunk builder is concerned: it adds a file and
goes on, or fails; or it adds nothing. -/
theorem visits_cons
    (h : visits ops openAt size (fuel + 1) ((n, path) :: q) m b
      = some (vs, err, m', b')) :
    (∃ reply b₁, b.addFile ops (openAt path) = some (reply, b₁)
      ∧ ((∃ us m₁, vs = { pos := n, path := path, added := some reply } :: us
          ∧ visits ops openAt size fuel q m₁ b₁ = some (us, err, m', b'))
        ∨ err ≠ .ok))
    ∨ ∃ us q', vs = { pos := n, path := path, added := none } :: us
      ∧ visits ops openAt size fuel q' m b = some (us, err, m', b') := by
  have hin := fits_of_visits h
  cases hreg : sIsReg (Node.mode m n) with
  | true =>
      obtain ⟨reply, b₁, hadd, hturn⟩ := (visits_reg hin hreg).1 h
      refine .inl ⟨reply, b₁, hadd, ?_⟩
      rcases hturn with ⟨-, us, hvs, hrest⟩ | ⟨hends, -, herr, -⟩
      · exact .inl ⟨us, _, hvs, hrest⟩
      · exact .inr fun hok => hends (.inl (herr ▸ hok))
  | false =>
      obtain ⟨us, q', -, hvs, hrest⟩ := (visits_other hin hreg).1 h
      exact .inr ⟨us, q', hvs, hrest⟩

end Turn

/-- The loop was reached, and ended well. -/
theorem queued_ok_iff {fuel : Nat} {heap : Nat → Mem} {root : Bytes}
    {t : SourceTree} {chunks : ChunkBuilder σ} {q : Queued σ} :
    queued ops openAt fuel heap root t chunks = some q ∧ q.err = .ok
      ↔ q.err = .ok ∧ ∃ b reply chunks',
        scanDfs heap t (start heap) = some (b, q.root)
          ∧ q.size = b.currentPos
          ∧ chunks.reserve ops b.currentPos = some (reply, chunks')
          ∧ reply.err = .ok ∧ q.start = reply.offset
          ∧ visits ops openAt b.dataSize.1 fuel [(usizeSize, root)]
              (b.data.writeLe 0 usizeSize b.currentPos) chunks'
            = some (q.visited, .ok, q.data, q.chunks) := by
  constructor
  · rintro ⟨h, hok⟩
    refine ⟨hok, ?_⟩
    unfold queued at h
    cases hscan : scanDfs heap t (start heap) with
    | none =>
        simp only [hscan] at h
        cases h
    | some scanned =>
        obtain ⟨b, offset⟩ := scanned
        simp only [hscan] at h
        cases hreserve : chunks.reserve ops b.currentPos with
        | none =>
            simp only [hreserve] at h
            cases h
        | some reserved =>
            obtain ⟨reply, chunks'⟩ := reserved
            simp only [hreserve] at h
            by_cases herr : reply.err ≠ .ok
            · rw [if_pos herr, Option.some.injEq] at h
              rw [← h] at hok
              exact absurd hok herr
            rw [if_neg herr] at h
            cases hvisits : visits ops openAt b.dataSize.1 fuel
                [(usizeSize, root)] (b.data.writeLe 0 usizeSize b.currentPos)
                chunks' with
            | none =>
                simp only [hvisits] at h
                cases h
            | some looped =>
                obtain ⟨vs, err, m, chunks''⟩ := looped
                simp only [hvisits, Option.some.injEq] at h
                subst h
                obtain rfl : err = .ok := hok
                exact ⟨b, reply, chunks', rfl, rfl, hreserve, not_not.1 herr,
                  rfl, hvisits⟩
  · rintro ⟨hok, b, reply, chunks', hscan, hsize, hreserve, herr, hstart,
      hvisits⟩
    refine ⟨?_, hok⟩
    unfold queued
    simp only [hscan, hreserve, herr, ne_eq, not_true_eq_false, if_false,
      hvisits]
    obtain ⟨r, vs, err, data, size, start, chunks''⟩ := q
    simp only at hok hsize hstart
    rw [hok, hsize, hstart]

/-- `build` goes on from where its queue is empty. -/
theorem build_eq_queued (fuel : Nat) (heap : Nat → Mem) (root : Bytes)
    (t : SourceTree) (chunks : ChunkBuilder σ) :
    build ops openAt fuel heap root t chunks
      = match queued ops openAt fuel heap root t chunks with
        | none => none
        | some q =>
            if q.err ≠ .ok then
              some { err := q.err, data := q.data, size := q.size
                     chunks := q.chunks }
            else
              match q.chunks.write ops q.start (q.data.read 0 q.size) with
              | none => none
              | some (_, chunks) =>
                  match chunks.build ops with
                  | none => none
                  | some (_, chunks) =>
                      some { err := .ok, data := q.data, size := q.size
                             chunks := chunks } := by
  unfold build queued createChunks
  cases scanDfs heap t (start heap) with
  | none => rfl
  | some scanned =>
      obtain ⟨b, offset⟩ := scanned
      simp only
      cases chunks.reserve ops b.currentPos with
      | none => rfl
      | some reserved =>
          obtain ⟨reply, chunks⟩ := reserved
          simp only
          by_cases herr : reply.err ≠ .ok
          · rw [if_pos herr, if_pos herr]
            simp only [if_pos herr]
          · rw [if_neg herr, if_neg herr, createLoop_eq_visits]
            cases visits ops openAt b.dataSize.1 fuel [(usizeSize, root)]
                (b.data.writeLe 0 usizeSize b.currentPos) chunks with
            | none => rfl
            | some looped =>
                obtain ⟨vs, err, m, chunks⟩ := looped
                simp only [Option.map_some]
                by_cases herr' : err ≠ .ok
                · simp only [if_pos herr']
                · simp only [if_neg herr']
                  cases chunks.write ops reply.offset
                      (m.read 0 b.currentPos) with
                  | none => rfl
                  | some written => rfl

/-- Where a build ended: in `create_chunks`, with its error, or behind the
last `write` and `ChunkBuilder::build`, whatever the two said. -/
theorem build_cases {fuel : Nat} {heap : Nat → Mem} {root : Bytes}
    {t : SourceTree} {chunks : ChunkBuilder σ} {r : Built σ}
    (h : build ops openAt fuel heap root t chunks = some r) :
    ∃ q, queued ops openAt fuel heap root t chunks = some q
      ∧ ((q.err ≠ .ok ∧ r.err = q.err)
        ∨ (q.err = .ok ∧ ∃ reply b₁ err b₂,
          q.chunks.write ops q.start (q.data.read 0 q.size)
              = some (reply, b₁)
            ∧ b₁.build ops = some (err, b₂)
            ∧ r = { err := .ok, data := q.data, size := q.size
                    chunks := b₂ })) := by
  rw [build_eq_queued] at h
  cases hqueued : queued ops openAt fuel heap root t chunks with
  | none =>
      rw [hqueued] at h
      cases h
  | some q =>
      refine ⟨q, rfl, ?_⟩
      simp only [hqueued] at h
      by_cases hok : q.err = .ok
      · refine .inr ⟨hok, ?_⟩
        rw [if_neg (not_not.2 hok)] at h
        cases hwrite : q.chunks.write ops q.start
            (q.data.read 0 q.size) with
        | none =>
            simp only [hwrite] at h
            cases h
        | some written =>
            obtain ⟨reply, b₁⟩ := written
            simp only [hwrite] at h
            cases hflush : b₁.build ops with
            | none =>
                simp only [hflush] at h
                cases h
            | some flushed =>
                obtain ⟨err, b₂⟩ := flushed
                simp only [hflush, Option.some.injEq] at h
                exact ⟨reply, b₁, err, b₂, rfl, hflush, h.symm⟩
      · rw [if_pos hok, Option.some.injEq] at h
        exact .inl ⟨hok, by rw [← h]⟩

end MetaFSBuilder

end Distfs

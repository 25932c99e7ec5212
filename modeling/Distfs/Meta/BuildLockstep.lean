/-
Builds over two stores that answer alike.

`MetaFSBuilder::build` uses its store only through the chunk builder, so
two builds over stores of which one follows the other take the same turns
and end with the same image (`build_lockstep`). What a build writes can
therefore be noted without touching it (`build_noting`): `chunksWritten` is
the record of the run.
-/
import Distfs.Data.Lockstep
import Distfs.Meta.Visits

namespace Distfs

open ChunkBuilder

/-- The same with another chunk builder. -/
def Queued.withChunks {σ τ : Type} (q : Queued σ) (chunks : ChunkBuilder τ) :
    Queued τ :=
  { root := q.root, visited := q.visited, err := q.err, data := q.data
    size := q.size, start := q.start, chunks := chunks }

/-- The same with another chunk builder. -/
def Built.withChunks {σ τ : Type} (r : Built σ) (chunks : ChunkBuilder τ) :
    Built τ :=
  { err := r.err, data := r.data, size := r.size, chunks := chunks }

namespace MetaFSBuilder

section Lockstep

variable {σ τ : Type} {ops : ChunkOps σ} {ops' : ChunkOps τ}
  {good : σ → Prop} {rel : σ → τ → Prop} {openAt : Bytes → SourceFile}
  {size : Nat} {heap : Nat → Mem} {root : Bytes} {t : SourceTree}
  {fuel : Nat} {b : ChunkBuilder σ} (hf : ops.Follows ops' good rel)

include hf in
/-- The queue loop. -/
theorem visits_lockstep (fuel : Nat) :
    ∀ q m b vs err m' b',
      visits ops openAt size fuel q m b = some (vs, err, m', b') →
      Lockstep good rel b b' fun x y =>
        visits ops' openAt size fuel q m x = some (vs, err, m', y) := by
  induction fuel with
  | zero =>
      intro q m b vs err m' b' h
      cases q with
      | nil =>
          cases h
          exact .quiet rfl fun _ => rfl
      | cons head q => cases h
  | succ fuel ih =>
      intro q m b vs err m' b' h
      cases q with
      | nil =>
          cases h
          exact .quiet rfl fun _ => rfl
      | cons head q =>
          obtain ⟨n, path⟩ := head
          have hin := fits_of_visits h
          cases hreg : sIsReg (Node.mode m n) with
          | true =>
              obtain ⟨reply, b₁, hadd, hturn⟩ := (visits_reg hin hreg).1 h
              have hstep := addFile_lockstep hf hadd
              rcases hturn with ⟨hgoes, us, rfl, hrest⟩
                | ⟨hends, rfl, rfl, rfl, rfl⟩
              · refine (hstep.trans (ih _ _ _ _ _ _ _ hrest)).mono rfl rfl ?_
                rintro x z ⟨y, hy, hz⟩
                exact (visits_reg hin hreg).2
                  ⟨reply, y, hy, .inl ⟨hgoes, us, rfl, hz⟩⟩
              · refine hstep.mono rfl rfl fun x y hy => ?_
                exact (visits_reg hin hreg).2
                  ⟨reply, _, hy, .inr ⟨hends, rfl, rfl, rfl, rfl⟩⟩
          | false =>
              obtain ⟨us, q', hq, rfl, hrest⟩ := (visits_other hin hreg).1 h
              refine (ih _ _ _ _ _ _ _ hrest).mono rfl rfl fun x y hy => ?_
              exact (visits_other hin hreg).2 ⟨us, q', hq, rfl, hy⟩

include hf in
/-- `build` up to the end of the queue loop. -/
theorem queued_lockstep {q : Queued σ}
    (h : queued ops openAt fuel heap root t b = some q) :
    Lockstep good rel b q.chunks fun x y =>
      queued ops' openAt fuel heap root t x
        = some (q.withChunks y) := by
  unfold queued at h
  cases hscan : scanDfs heap t (start heap) with
  | none =>
      simp only [hscan] at h
      cases h
  | some scanned =>
      obtain ⟨m, offset⟩ := scanned
      simp only [hscan] at h
      cases hreserve : b.reserve ops m.currentPos with
      | none =>
          simp only [hreserve] at h
          cases h
      | some reserved =>
          obtain ⟨reply, b₁⟩ := reserved
          simp only [hreserve] at h
          have hstep := reserve_lockstep hf hreserve
          by_cases herr : reply.err ≠ .ok
          · rw [if_pos herr] at h
            cases h
            refine hstep.mono rfl rfl fun x y hy => ?_
            unfold queued
            simp only [hscan, hy, if_pos herr]
            rfl
          · rw [if_neg herr] at h
            cases hvisits : visits ops openAt m.dataSize.1 fuel
                [(usizeSize, root)] (m.data.writeLe 0 usizeSize m.currentPos)
                b₁ with
            | none =>
                simp only [hvisits] at h
                cases h
            | some looped =>
                obtain ⟨vs, err, data, b₂⟩ := looped
                simp only [hvisits] at h
                cases h
                refine (hstep.trans
                  (visits_lockstep hf fuel _ _ _ _ _ _ _ hvisits)).mono rfl
                    rfl ?_
                rintro x z ⟨y, hy, hz⟩
                unfold queued
                simp only [hscan, hy, if_neg herr, hz]
                rfl

include hf in
/-- `MetaFSBuilder::build`. -/
theorem build_lockstep {r : Built σ}
    (h : build ops openAt fuel heap root t b = some r) :
    Lockstep good rel b r.chunks fun x y =>
      build ops' openAt fuel heap root t x
        = some (r.withChunks y) := by
  rw [build_eq_queued] at h
  cases hqueued : queued ops openAt fuel heap root t b with
  | none =>
      simp only [hqueued] at h
      cases h
  | some q =>
      simp only [hqueued] at h
      have hstep := queued_lockstep hf hqueued
      by_cases hok : q.err ≠ .ok
      · rw [if_pos hok] at h
        cases h
        refine hstep.mono rfl rfl fun x y hy => ?_
        rw [build_eq_queued, hy]
        exact if_pos hok
      · rw [if_neg hok] at h
        cases hwrite : q.chunks.write ops q.start (q.data.read 0 q.size) with
        | none =>
            simp only [hwrite] at h
            cases h
        | some written =>
            obtain ⟨reply, b₁⟩ := written
            simp only [hwrite] at h
            cases hflush : b₁.build ops with
            | none =>
                simp only [hflush] at h
                cases h
            | some flushed =>
                obtain ⟨err, b₂⟩ := flushed
                simp only [hflush] at h
                cases h
                have hrest := (write_lockstep hf hwrite).trans
                  (ChunkBuilder.build_lockstep hf hflush)
                refine (hstep.trans hrest).mono rfl rfl ?_
                rintro x z ⟨y, hy, w, hw, hz⟩
                have hw' : (q.withChunks y).chunks.write ops'
                    (q.withChunks y).start
                    ((q.withChunks y).data.read 0 (q.withChunks y).size)
                      = some (reply, w) := hw
                rw [build_eq_queued]
                simp only [hy, hw', hz]
                exact if_neg hok

end Lockstep

-- ================================================== the chunks written

section Written

variable {σ : Type} (ops : ChunkOps σ) (openAt : Bytes → SourceFile)
  (fuel : Nat) (heap : Nat → Mem) (root : Bytes) (t : SourceTree) (s : σ)
  (buff : Mem)

/-- The chunks that a build writes to its store, in this order. -/
def chunksWritten : List Bytes :=
  match build ops.noting openAt fuel heap root t (new (s, []) buff) with
  | none => []
  | some r => r.chunks.store.2

variable {ops openAt fuel heap root t s buff}

/-- What a build writes can be noted. -/
theorem build_noting {r : Built σ}
    (h : build ops openAt fuel heap root t (new s buff) = some r) :
    build ops.noting openAt fuel heap root t (new (s, []) buff)
      = some (r.withChunks (r.chunks.withStore (r.chunks.store,
          chunksWritten ops openAt fuel heap root t s buff))) := by
  obtain ⟨⟨s', bs⟩, hnoting, hs'⟩ :=
    (build_lockstep (ChunkOps.Follows.noting ops) h trivial).2 (s, []) rfl
  obtain rfl : s' = r.chunks.store := hs'
  have hrun : build ops.noting openAt fuel heap root t (new (s, []) buff)
      = some (r.withChunks (r.chunks.withStore (r.chunks.store, bs))) :=
    hnoting
  rw [chunksWritten, hrun]
  rfl

end Written

end MetaFSBuilder

end Distfs

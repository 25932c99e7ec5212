/-
`ChunkBuilder` over a store whose operations succeed: every call comes
back, and its only errors are those of the source files. Nothing is asked
of what the store keeps, so there is no limit to what is written.
-/
import Distfs.Data.BuilderRefinement

namespace Distfs

open Transfer

/-- In a `ready` state writes of whole chunks succeed, and reads of what
is listed; and the store stays ready. -/
structure ChunkOps.Succeeds {σ : Type} (ops : ChunkOps σ)
    (ready : σ → Prop) : Prop where
  write : ∀ s id b, ready s → b.length = chunkSizeBytes →
    ∃ s', ops.writeChunk s id b = some (.ok, s') ∧ ready s'
  read : ∀ s id, ready s → id ∈ ops.available s →
    ∃ x s', ops.readChunk s id = some (.ok x, s') ∧ ready s'

/-- A store that keeps everything succeeds. -/
theorem ChunkOps.Faithful.succeeds {σ : Type} {ops : ChunkOps σ}
    {ready : σ → Prop} {view : σ → UInt32 → Option Bytes}
    (h : ops.Faithful ready view fun _ => True) : ops.Succeeds ready := by
  refine ⟨fun s id b hs hb => ?_, fun s id hs hid => ?_⟩
  · obtain ⟨s', hwrite, hready, -⟩ := h.write s id b hs trivial hb
    exact ⟨s', hwrite, hready⟩
  · obtain ⟨b, hb⟩ := Option.isSome_iff_exists.1 ((h.available s id hs).1 hid)
    obtain ⟨s', hread, hready, -⟩ := h.read s id b hs hb
    exact ⟨b, s', hread, hready⟩

namespace ChunkBuilder

variable {σ : Type} {ops : ChunkOps σ} {ready : σ → Prop}
  {b : ChunkBuilder σ} (hops : ops.Succeeds ready)

include hops in
theorem movePos_ok (hb : ready b.store) (n : Nat) :
    ∃ b', movePos ops b n = some (.ok, b') ∧ ready b'.store := by
  unfold movePos
  by_cases hmove : n / chunkSizeBytes ≠ b.chunkNum.toNat
  · rw [if_pos hmove]
    obtain ⟨s', hwrite, hs'⟩ := hops.write b.store b.chunkNum
      (b.buff.read 0 chunkSizeBytes) hb (Mem.length_read _ _ _)
    simp only [hwrite]
    rw [if_neg (by simp)]
    by_cases havail : UInt32.ofNat (n / chunkSizeBytes) ∈ ops.available s'
    · rw [if_pos havail]
      obtain ⟨x, s'', hread, hs''⟩ := hops.read s' _ hs' havail
      simp only [hread]
      exact ⟨_, rfl, hs''⟩
    · rw [if_neg havail]
      exact ⟨_, rfl, hs'⟩
  · rw [if_neg hmove]
    exact ⟨_, rfl, hb⟩

include hops in
theorem writeData_ok (data : Bytes) :
    ∀ b : ChunkBuilder σ, ready b.store →
      ∃ b', writeData ops b data = some (.ok, b') ∧ ready b'.store := by
  induction hlen : data.length using Nat.strong_induction_on
    generalizing data with
  | _ n ih =>
      intro b hb
      rw [writeData]
      by_cases hpos : 0 < data.length
      · rw [dif_pos hpos]
        have hmod := Nat.mod_lt b.pos chunkSizeBytes_pos
        simp only
        generalize hnext : min (chunkSizeBytes - b.pos % chunkSizeBytes)
          data.length = next
        have hready : ready ({ b with
            buff := b.buff.write (b.pos % chunkSizeBytes) (data.take next)
            pos := usize (b.pos + next) } : ChunkBuilder σ).store := hb
        obtain ⟨b', hmove, hb'⟩ :=
          movePos_ok hops hready (usize (b.pos + next))
        simp only [hmove]
        rw [if_neg (by simp)]
        exact ih _ (by rw [List.length_drop]; omega) (data.drop next) rfl b'
          hb'
      · rw [dif_neg hpos]
        exact ⟨b, rfl, hb⟩

include hops in
/-- A file whose reads succeed is read to its end. -/
theorem fileLoop_ok (fd : Fd) :
    ∀ (b : ChunkBuilder σ) (length : Nat), ready b.store →
      (∀ c ∈ fd.script, c.Progress) →
      ∃ length' b', fileLoop ops b fd length = some (.ok, length', b')
        ∧ ready b'.store := by
  induction hlen : fd.rest.length using Nat.strong_induction_on
    generalizing fd with
  | _ n ih =>
      intro b length hb hscript
      obtain ⟨hrest, hgot⟩ := readLoop_rest fd chunkSizeBytes
      obtain ⟨hfailed, -, -, hscript', -⟩ :=
        readLoop_of_progress chunkSizeBytes fd hscript chunkSizeBytes_pos
      have hfailed' : ¬ (readLoop fd chunkSizeBytes).failed = true := by
        rw [hfailed]
        simp
      rw [fileLoop, dif_neg hfailed']
      obtain ⟨b', hwrite, hb'⟩ := writeData_ok hops
        (readLoop fd chunkSizeBytes).got b hb
      simp only [hwrite]
      rw [if_neg (by simp)]
      by_cases hatEnd : (readLoop fd chunkSizeBytes).atEnd = true
      · rw [dif_pos hatEnd]
        exact ⟨_, b', rfl, hb'⟩
      · rw [dif_neg hatEnd]
        have hmore := hgot hfailed (by simpa using hatEnd)
        exact ih _ (by omega) _ rfl b' _ hb' hscript'

include hops in
theorem addFile_ok (hb : ready b.store) {source : SourceFile}
    (hsound : Sound source) :
    ∃ reply b', addFile ops b source = some (reply, b') ∧ ready b'.store
      ∧ (reply.err = .ok ∨ reply.err = .notFound
        ∨ reply.err = .accessDenied) := by
  cases source with
  | notFound => exact ⟨_, b, rfl, hb, .inr (.inl rfl)⟩
  | denied => exact ⟨_, b, rfl, hb, .inr (.inr rfl)⟩
  | opened fd =>
      obtain ⟨length, b', hloop, hb'⟩ := fileLoop_ok hops fd b 0 hb hsound
      unfold addFile
      simp only [hloop]
      exact ⟨_, b', rfl, hb', .inl rfl⟩

include hops in
theorem reserve_ok (hb : ready b.store) (length : Nat) :
    ∃ reply b', reserve ops b length = some (reply, b') ∧ reply.err = .ok
      ∧ ready b'.store := by
  obtain ⟨b', hmove, hb'⟩ := movePos_ok hops hb (usize (b.pos + length))
  unfold reserve
  simp only [hmove]
  exact ⟨_, b', rfl, rfl, hb'⟩

end ChunkBuilder

end Distfs

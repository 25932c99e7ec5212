/-
Builders over two stores that answer alike.

A builder sees of its store only the answers. `Follows` says that a second
store gives the answers of the first one: in related states, and as far as
it is `good` in the end what the first one has come to. (Think of a record
of what was asked or answered: it only grows, so what is good in the end
was so all along.) Then a builder over the second store makes the same
calls and has the same results (`Lockstep`); there is one lemma for each
function of the builder, and calls that follow each other compose
(`Lockstep.trans`).

The record of what is written (`noting`) is the first instance: it changes
nothing (`Follows.noting`).
-/
import Distfs.Data.ChunkBuilder

namespace Distfs

open Transfer

namespace ChunkOps

/-- The answers of a store are given by another one as well. -/
structure Follows {σ τ : Type} (ops : ChunkOps σ) (ops' : ChunkOps τ)
    (good : σ → Prop) (rel : σ → τ → Prop) : Prop where
  write : ∀ s id b err s', b.length = chunkSizeBytes →
    ops.writeChunk s id b = some (err, s') → good s' →
    good s ∧ ∀ t, rel s t →
      ∃ t', ops'.writeChunk t id b = some (err, t') ∧ rel s' t'
  read : ∀ s id x s', id ∈ ops.available s →
    ops.readChunk s id = some (x, s') → good s' →
    good s ∧ ∀ t, rel s t →
      ∃ t', ops'.readChunk t id = some (x, t') ∧ rel s' t'
  available : ∀ s t id, good s → rel s t →
    (id ∈ ops.available s ↔ id ∈ ops'.available t)

/-- What the operations preserve, as a store that follows itself. -/
theorem Follows.invariant {σ : Type} {ops : ChunkOps σ} {inv : σ → Prop}
    (hwrite : ∀ s id b err s', inv s → b.length = chunkSizeBytes →
      ops.writeChunk s id b = some (err, s') → inv s')
    (hread : ∀ s id x s', inv s → id ∈ ops.available s →
      ops.readChunk s id = some (x, s') → inv s') :
    ops.Follows ops (fun _ => True) fun s t => t = s ∧ inv s := by
  refine ⟨fun s id b err s' hlen h _ => ⟨trivial, ?_⟩,
    fun s id x s' havail h _ => ⟨trivial, ?_⟩, fun s t id _ ht => ?_⟩
  · rintro t ⟨rfl, hinv⟩
    exact ⟨s', h, rfl, hwrite _ _ _ _ _ hinv hlen h⟩
  · rintro t ⟨rfl, hinv⟩
    exact ⟨s', h, rfl, hread _ _ _ _ hinv havail h⟩
  · rw [ht.1]

/-- The operations, with a record of the bytes that were written. -/
def noting {σ : Type} (ops : ChunkOps σ) : ChunkOps (σ × List Bytes) :=
  { writeChunk := fun s id b =>
      (ops.writeChunk s.1 id b).map fun r => (r.1, (r.2, s.2 ++ [b]))
    readChunk := fun s id =>
      (ops.readChunk s.1 id).map fun r => (r.1, (r.2, s.2))
    removeChunk := fun s id =>
      ((ops.removeChunk s.1 id).1, ((ops.removeChunk s.1 id).2, s.2))
    available := fun s => ops.available s.1 }

/-- The record restricts nothing. -/
theorem Follows.noting {σ : Type} (ops : ChunkOps σ) :
    ops.Follows ops.noting (fun _ => True) fun s t => t.1 = s := by
  refine ⟨fun s id b err s' _ hwrite _ => ⟨trivial, ?_⟩,
    fun s id x s' _ hread _ => ⟨trivial, ?_⟩, fun s t id _ ht => ?_⟩
  · rintro t rfl
    refine ⟨(s', t.2 ++ [b]), ?_, rfl⟩
    simp only [ChunkOps.noting, hwrite, Option.map_some]
  · rintro t rfl
    refine ⟨(s', t.2), ?_, rfl⟩
    simp only [ChunkOps.noting, hread, Option.map_some]
  · rw [← ht]
    rfl

end ChunkOps

namespace ChunkBuilder

/-- The builder over another store. -/
def withStore {σ τ : Type} (b : ChunkBuilder σ) (store : τ) :
    ChunkBuilder τ :=
  { store := store, built := b.built, pos := b.pos, buff := b.buff
    chunkNum := b.chunkNum }

/-- A call that goes from `b` to `b'` goes the same way over the other
store, where `runs` says that the call is made. -/
def Lockstep {σ τ : Type} (good : σ → Prop) (rel : σ → τ → Prop)
    (b b' : ChunkBuilder σ) (runs : ChunkBuilder τ → ChunkBuilder τ → Prop) :
    Prop :=
  good b'.store → good b.store ∧ ∀ t, rel b.store t →
    ∃ t', runs (b.withStore t) (b'.withStore t') ∧ rel b'.store t'

section Calls

variable {σ τ : Type} {ops : ChunkOps σ} {ops' : ChunkOps τ}
  {good : σ → Prop} {rel : σ → τ → Prop}
  {b b₁ b₂ b' : ChunkBuilder σ} {err : ErrorCode}
  {runs runs' : ChunkBuilder τ → ChunkBuilder τ → Prop}

namespace Lockstep

/-- A step that asks nothing of the store. -/
theorem quiet (hstore : b'.store = b.store)
    (hruns : ∀ t : τ, runs (b.withStore t) (b'.withStore t)) :
    Lockstep good rel b b' runs := by
  intro hgood
  rw [hstore] at hgood ⊢
  exact ⟨hgood, fun t ht => ⟨t, hruns t, ht⟩⟩

/-- A call that goes on after another one. -/
theorem trans (h : Lockstep good rel b b₁ runs)
    (h' : Lockstep good rel b₁ b' runs') :
    Lockstep good rel b b' fun x z => ∃ y, runs x y ∧ runs' y z := by
  intro hgood
  obtain ⟨hgood₁, hgoes'⟩ := h' hgood
  obtain ⟨hgood₀, hgoes⟩ := h hgood₁
  refine ⟨hgood₀, fun t ht => ?_⟩
  obtain ⟨t₁, hruns, ht₁⟩ := hgoes t ht
  obtain ⟨t', hruns', ht'⟩ := hgoes' t₁ ht₁
  exact ⟨t', ⟨_, hruns, hruns'⟩, ht'⟩

/-- The same, seen from a caller that was at `b` and goes on at `b'`. -/
theorem mono (h : Lockstep good rel b₁ b₂ runs) (hb : b₁.store = b.store)
    (hb' : b₂.store = b'.store)
    (hruns : ∀ t t' : τ, runs (b₁.withStore t) (b₂.withStore t') →
      runs' (b.withStore t) (b'.withStore t')) :
    Lockstep good rel b b' runs' := by
  intro hgood
  rw [← hb'] at hgood ⊢
  rw [← hb]
  obtain ⟨hgood₁, hgoes⟩ := h hgood
  refine ⟨hgood₁, fun t ht => ?_⟩
  obtain ⟨t', ht', hrel⟩ := hgoes t ht
  exact ⟨t', hruns t t' ht', hrel⟩

/-- What the operations preserve is preserved by the call. -/
theorem invariant {inv : σ → Prop} {goes : ChunkBuilder σ →
      ChunkBuilder σ → Prop}
    (h : Lockstep (fun _ => True) (fun s t => t = s ∧ inv s) b b' goes)
    (hinv : inv b.store) : inv b'.store := by
  obtain ⟨-, hgoes⟩ := h trivial
  obtain ⟨t, -, -, hinv'⟩ := hgoes b.store ⟨rfl, hinv⟩
  exact hinv'

end Lockstep

variable (hf : ops.Follows ops' good rel)

include hf in
/-- The chunk in memory is written to the store. -/
theorem flush_lockstep {store : σ}
    (h : ops.writeChunk b.store b.chunkNum (b.buff.read 0 chunkSizeBytes)
      = some (err, store)) :
    Lockstep good rel b { b with store := store } fun x y =>
      ops'.writeChunk x.store b.chunkNum (b.buff.read 0 chunkSizeBytes)
          = some (err, y.store)
        ∧ ∀ i, i ∈ ops.available store ↔ i ∈ ops'.available y.store := by
  intro hgood
  obtain ⟨hgood₀, hgoes⟩ :=
    hf.write _ _ _ _ _ (Mem.length_read _ _ _) h hgood
  refine ⟨hgood₀, fun t ht => ?_⟩
  obtain ⟨t', hwrite, ht'⟩ := hgoes t ht
  exact ⟨t', ⟨hwrite, fun i => hf.available store t' i hgood ht'⟩, ht'⟩

include hf in
/-- A chunk is read again. -/
theorem reload_lockstep {id : UInt32} {x : Except ErrorCode Bytes}
    {store : σ} (havail : id ∈ ops.available b.store)
    (h : ops.readChunk b.store id = some (x, store)) :
    Lockstep good rel b { b with store := store } fun y z =>
      ops'.readChunk y.store id = some (x, z.store) := by
  intro hgood
  obtain ⟨hgood₀, hgoes⟩ := hf.read _ _ _ _ havail h hgood
  refine ⟨hgood₀, fun t ht => ?_⟩
  obtain ⟨t', hread, ht'⟩ := hgoes t ht
  exact ⟨t', hread, ht'⟩

include hf in
/-- `move_pos`. -/
theorem movePos_lockstep {n : Nat} (h : movePos ops b n = some (err, b')) :
    Lockstep good rel b b' fun x y => movePos ops' x n = some (err, y) := by
  unfold movePos at h
  by_cases hmove : n / chunkSizeBytes ≠ b.chunkNum.toNat
  · rw [if_pos hmove] at h
    have hmove' : ∀ t : τ,
        n / chunkSizeBytes ≠ (b.withStore t).chunkNum.toNat := fun _ => hmove
    generalize hid : UInt32.ofNat (n / chunkSizeBytes) = c at h
    cases hwrite : ops.writeChunk b.store b.chunkNum
        (b.buff.read 0 chunkSizeBytes) with
    | none =>
        simp only [hwrite] at h
        cases h
    | some r =>
        obtain ⟨err₁, store⟩ := r
        simp only [hwrite] at h
        have hflush := flush_lockstep hf hwrite
        by_cases herr : err₁ ≠ .ok
        · -- the flush failed
          rw [if_pos herr, Option.some.injEq, Prod.mk.injEq] at h
          obtain ⟨rfl, rfl⟩ := h
          refine hflush.mono rfl rfl fun t t' hruns => ?_
          obtain ⟨hwrite', -⟩ := hruns
          unfold movePos
          rw [if_pos (hmove' t)]
          simp only [withStore] at hwrite' ⊢
          simp only [hwrite', if_pos herr]
        · rw [if_neg herr] at h
          by_cases havail : c ∈ ops.available store
          · rw [if_pos havail] at h
            cases hread : ops.readChunk store c with
            | none =>
                simp only [hread] at h
                cases h
            | some r =>
                obtain ⟨x, store'⟩ := r
                have hreload := @reload_lockstep _ _ _ _ _ _
                  { b with store := store } hf _ _ _ havail hread
                have hboth := hflush.trans hreload
                cases x with
                | error x =>
                    simp only [hread, Option.some.injEq, Prod.mk.injEq] at h
                    obtain ⟨rfl, rfl⟩ := h
                    refine hboth.mono rfl rfl ?_
                    rintro t t' ⟨y, ⟨hwrite', havail'⟩, hread'⟩
                    unfold movePos
                    rw [if_pos (hmove' t), hid]
                    simp only [withStore] at hwrite' hread' ⊢
                    simp only [hwrite', if_neg herr,
                      if_pos ((havail' c).1 havail), hread']
                | ok x =>
                    simp only [hread, Option.some.injEq, Prod.mk.injEq] at h
                    obtain ⟨rfl, rfl⟩ := h
                    refine hboth.mono rfl rfl ?_
                    rintro t t' ⟨y, ⟨hwrite', havail'⟩, hread'⟩
                    unfold movePos
                    rw [if_pos (hmove' t), hid]
                    simp only [withStore] at hwrite' hread' ⊢
                    simp only [hwrite', if_neg herr,
                      if_pos ((havail' c).1 havail), hread']
          · rw [if_neg havail, Option.some.injEq, Prod.mk.injEq] at h
            obtain ⟨rfl, rfl⟩ := h
            refine hflush.mono rfl rfl ?_
            rintro t t' ⟨hwrite', havail'⟩
            unfold movePos
            rw [if_pos (hmove' t), hid]
            simp only [withStore] at hwrite' havail' ⊢
            simp only [hwrite', if_neg herr,
              if_neg (mt (havail' c).2 havail)]
  · rw [if_neg hmove, Option.some.injEq, Prod.mk.injEq] at h
    obtain ⟨rfl, rfl⟩ := h
    refine .quiet rfl fun t => ?_
    unfold movePos
    exact if_neg hmove

include hf in
/-- `write_data`. -/
theorem writeData_lockstep (data : Bytes) :
    ∀ b, writeData ops b data = some (err, b') →
      Lockstep good rel b b' fun x y =>
        writeData ops' x data = some (err, y) := by
  induction hlen : data.length using Nat.strong_induction_on
    generalizing data with
  | _ n ih =>
      intro b h
      rw [writeData] at h
      by_cases hpos : 0 < data.length
      · rw [dif_pos hpos] at h
        simp only at h
        generalize hnext : min (chunkSizeBytes - b.pos % chunkSizeBytes)
          data.length = next at h
        have hmod := Nat.mod_lt b.pos chunkSizeBytes_pos
        -- the builder after the copy
        generalize hcopy : ({ b with
          buff := b.buff.write (b.pos % chunkSizeBytes) (data.take next)
          pos := usize (b.pos + next) } : ChunkBuilder σ) = b₁ at h
        have hstore : b₁.store = b.store := by rw [← hcopy]
        cases hmove : movePos ops b₁ (usize (b.pos + next)) with
        | none =>
            simp only [hmove] at h
            cases h
        | some r =>
            obtain ⟨err₁, b₂⟩ := r
            simp only [hmove] at h
            have hstep := movePos_lockstep hf hmove
            by_cases herr : err₁ ≠ .ok
            · rw [if_pos herr, Option.some.injEq, Prod.mk.injEq] at h
              obtain ⟨rfl, rfl⟩ := h
              refine hstep.mono hstore rfl fun t t' hy => ?_
              rw [writeData, dif_pos hpos]
              rw [← hcopy] at hy
              simp only [withStore] at hy ⊢
              simp only [hnext, hy, if_pos herr]
            · rw [if_neg herr] at h
              have hrest := ih (data.drop next).length
                (by rw [List.length_drop]; omega) (data.drop next) rfl b₂ h
              refine (hstep.trans hrest).mono hstore rfl ?_
              rintro t t' ⟨y, hy, hy'⟩
              rw [writeData, dif_pos hpos]
              rw [← hcopy] at hy
              simp only [withStore] at hy ⊢
              simp only [hnext, hy, if_neg herr]
              exact hy'
      · rw [dif_neg hpos, Option.some.injEq, Prod.mk.injEq] at h
        obtain ⟨rfl, rfl⟩ := h
        refine .quiet rfl fun t => ?_
        rw [writeData, dif_neg hpos]

include hf in
/-- The loop of `add_file`. -/
theorem fileLoop_lockstep (fd : Fd) :
    ∀ b length length', fileLoop ops b fd length = some (err, length', b') →
      Lockstep good rel b b' fun x y =>
        fileLoop ops' x fd length = some (err, length', y) := by
  induction hlen : fd.rest.length using Nat.strong_induction_on
    generalizing fd with
  | _ n ih =>
      intro b length length' h
      obtain ⟨hrest, hgot⟩ := readLoop_rest fd chunkSizeBytes
      rw [fileLoop] at h
      by_cases hfailed : (readLoop fd chunkSizeBytes).failed = true
      · rw [dif_pos hfailed] at h
        by_cases hnil : (readLoop fd chunkSizeBytes).got = []
        · rw [if_pos hnil] at h
          cases h
        · rw [if_neg hnil] at h
          cases hwrite : writeData ops b
              (readLoop fd chunkSizeBytes).got.dropLast with
          | none =>
              simp only [hwrite] at h
              cases h
          | some r =>
              obtain ⟨err₁, b₁⟩ := r
              simp only [hwrite] at h
              have hstep := writeData_lockstep hf _ _ hwrite
              by_cases herr : err₁ ≠ .ok
              · rw [if_pos herr] at h
                rw [Option.some.injEq, Prod.mk.injEq, Prod.mk.injEq] at h
                obtain ⟨rfl, rfl, rfl⟩ := h
                refine hstep.mono rfl rfl fun t t' hy => ?_
                rw [fileLoop, dif_pos hfailed, if_neg hnil]
                simp only [hy, if_pos herr]
              · rw [if_neg herr] at h
                rw [Option.some.injEq, Prod.mk.injEq, Prod.mk.injEq] at h
                obtain ⟨rfl, rfl, rfl⟩ := h
                refine hstep.mono rfl rfl fun t t' hy => ?_
                rw [fileLoop, dif_pos hfailed, if_neg hnil]
                simp only [hy, if_neg herr]
      · rw [dif_neg hfailed] at h
        cases hwrite : writeData ops b
            (readLoop fd chunkSizeBytes).got with
        | none =>
            simp only [hwrite] at h
            cases h
        | some r =>
            obtain ⟨err₁, b₁⟩ := r
            simp only [hwrite] at h
            have hstep := writeData_lockstep hf _ _ hwrite
            by_cases herr : err₁ ≠ .ok
            · rw [if_pos herr] at h
              rw [Option.some.injEq, Prod.mk.injEq, Prod.mk.injEq] at h
              obtain ⟨rfl, rfl, rfl⟩ := h
              refine hstep.mono rfl rfl fun t t' hy => ?_
              rw [fileLoop, dif_neg hfailed]
              simp only [hy, if_pos herr]
            · rw [if_neg herr] at h
              by_cases hatEnd : (readLoop fd chunkSizeBytes).atEnd = true
              · rw [dif_pos hatEnd] at h
                rw [Option.some.injEq, Prod.mk.injEq, Prod.mk.injEq] at h
                obtain ⟨rfl, rfl, rfl⟩ := h
                refine hstep.mono rfl rfl fun t t' hy => ?_
                rw [fileLoop, dif_neg hfailed]
                simp only [hy, if_neg herr, dif_pos hatEnd]
              · rw [dif_neg hatEnd] at h
                have hmore := hgot (by simpa using hfailed)
                  (by simpa using hatEnd)
                have hloop := ih _ (by omega) _ rfl b₁ _ _ h
                refine (hstep.trans hloop).mono rfl rfl ?_
                rintro t t' ⟨y, hy, hy'⟩
                rw [fileLoop, dif_neg hfailed]
                simp only [hy, if_neg herr, dif_neg hatEnd]
                exact hy'

include hf in
/-- `add_file`. -/
theorem addFile_lockstep {source : SourceFile} {reply : Reply}
    (h : addFile ops b source = some (reply, b')) :
    Lockstep good rel b b' fun x y =>
      addFile ops' x source = some (reply, y) := by
  unfold addFile at h
  cases source with
  | notFound | denied =>
      cases h
      exact .quiet rfl fun t => rfl
  | opened fd =>
      simp only at h
      cases hloop : fileLoop ops b fd 0 with
      | none =>
          simp only [hloop] at h
          cases h
      | some r =>
          obtain ⟨err, length, b₁⟩ := r
          simp only [hloop] at h
          cases h
          refine (fileLoop_lockstep hf fd _ _ _ hloop).mono rfl rfl
            fun t t' hy => ?_
          unfold addFile
          simp only [hy]
          rfl

include hf in
/-- `reserve`. -/
theorem reserve_lockstep {length : Nat} {reply : Reply}
    (h : reserve ops b length = some (reply, b')) :
    Lockstep good rel b b' fun x y =>
      reserve ops' x length = some (reply, y) := by
  unfold reserve at h
  cases hmove : movePos ops b (usize (b.pos + length)) with
  | none =>
      simp only [hmove] at h
      cases h
  | some r =>
      obtain ⟨err, b₁⟩ := r
      simp only [hmove] at h
      cases h
      refine (movePos_lockstep hf hmove).mono rfl rfl fun t t' hy => ?_
      have hy' : movePos ops' (b.withStore t)
          (usize ((b.withStore t).pos + length))
            = some (err, b'.withStore t') := hy
      unfold reserve
      simp only [hy']
      rfl

include hf in
/-- `write`. -/
theorem write_lockstep {offset : Nat} {data : Bytes} {reply : Reply}
    (h : write ops b offset data = some (reply, b')) :
    Lockstep good rel b b' fun x y =>
      write ops' x offset data = some (reply, y) := by
  unfold write at h
  cases hmove : movePos ops b offset with
  | none =>
      simp only [hmove] at h
      cases h
  | some r =>
      obtain ⟨err₁, b₁⟩ := r
      simp only [hmove] at h
      have hstep := movePos_lockstep hf hmove
      by_cases herr : err₁ ≠ .ok
      · rw [if_pos herr] at h
        cases h
        refine hstep.mono rfl rfl fun t t' hy => ?_
        unfold write
        simp only [hy, if_pos herr]
      · rw [if_neg herr] at h
        cases hwrite : writeData ops b₁ data with
        | none =>
            simp only [hwrite] at h
            cases h
        | some r =>
            obtain ⟨err, b₂⟩ := r
            simp only [hwrite] at h
            cases h
            refine (hstep.trans (writeData_lockstep hf _ _ hwrite)).mono rfl
              rfl ?_
            rintro t t' ⟨y, hy, hy'⟩
            unfold write
            simp only [hy, if_neg herr, hy']

include hf in
/-- `build`. -/
theorem build_lockstep (h : build ops b = some (err, b')) :
    Lockstep good rel b b' fun x y => build ops' x = some (err, y) := by
  unfold build at h
  cases hwrite : ops.writeChunk b.store b.chunkNum
      (b.buff.read 0 chunkSizeBytes) with
  | none =>
      simp only [hwrite] at h
      cases h
  | some r =>
      obtain ⟨err₁, store⟩ := r
      simp only [hwrite] at h
      cases h
      refine (flush_lockstep hf hwrite).mono rfl rfl ?_
      rintro t t' ⟨hwrite', -⟩
      unfold build
      simp only [withStore] at hwrite' ⊢
      simp only [hwrite']

-- ======================================================== invariants

variable {inv : σ → Prop}
  (hinv : ops.Follows ops (fun _ => True) fun s t => t = s ∧ inv s)

include hinv in
/-- What the operations preserve is preserved by a call. -/
theorem perform_invariant {c : Operation}
    (h : perform ops b c = some (err, b')) (hb : inv b.store) :
    inv b'.store := by
  cases c with
  | build => exact (build_lockstep hinv h).invariant hb
  | request r =>
      simp only [perform] at h
      split at h
      · cases h
      · next reply b₁ hserve =>
        cases h
        cases r with
        | addFile source =>
            exact (addFile_lockstep hinv hserve).invariant hb
        | reserve length =>
            exact (reserve_lockstep hinv hserve).invariant hb
        | write offset data =>
            exact (write_lockstep hinv hserve).invariant hb

include hinv in
/-- And by a sequence of calls. -/
theorem performAll_invariant (cs : List Operation) :
    ∀ (b : ChunkBuilder σ) (log : List (Operation × ErrorCode)),
      performAll ops b cs = some (log, b') → inv b.store →
      inv b'.store := by
  induction cs with
  | nil =>
      intro b log h hb
      cases h
      exact hb
  | cons c cs ih =>
      intro b log h hb
      rw [performAll] at h
      split at h
      · cases h
      next err b₁ hperform =>
      split at h
      · cases h
      next log' b₂ hrest =>
      cases h
      exact ih b₁ log' hrest (perform_invariant hinv hperform hb)

end Calls

end ChunkBuilder

end Distfs

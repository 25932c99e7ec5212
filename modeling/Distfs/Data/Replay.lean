/-
`ChunkBuilder` over a store whose operations may fail.

# The answers

`logged` adds to a store the record of what it answered. A call of the
builder stops at the first error and hands it on, so its error code tells
whether all answers were OK; only `add_file` has errors of its own.
`Outcome` says so of a call. Calls that follow each other compose
(`Outcome.trans`), and there is one lemma for each function of the
builder.

# The replay

What a failed operation leaves behind is anyone's guess. As long as all
answers are OK, an `Honest` store cannot be told from one in memory
(`Honest.follows`), so that the builders over the two are in lockstep.
What is proved of a store that never fails (`BuilderRefinement`) so holds
of all runs in which this one did not.
-/
import Distfs.Data.BuilderRefinement
import Distfs.Data.Lockstep

namespace Distfs

open Transfer

/-- What the store answered to a write or a read of a chunk. -/
structure Answer where
  id : UInt32
  err : ErrorCode
  deriving DecidableEq

namespace ChunkOps

variable {σ : Type}

/-- The operations, with a record of the answers. -/
def logged (ops : ChunkOps σ) : ChunkOps (σ × List Answer) :=
  { writeChunk := fun s id b =>
      match ops.writeChunk s.1 id b with
      | none => none
      | some (err, t) => some (err, (t, s.2 ++ [{ id := id, err := err }]))
    readChunk := fun s id =>
      match ops.readChunk s.1 id with
      | none => none
      | some (.error err, t) =>
          some (.error err, (t, s.2 ++ [{ id := id, err := err }]))
      | some (.ok x, t) =>
          some (.ok x, (t, s.2 ++ [{ id := id, err := .ok }]))
    removeChunk := fun s id =>
      ((ops.removeChunk s.1 id).1, ((ops.removeChunk s.1 id).2, s.2))
    available := fun s => ops.available s.1 }

/-- A read that fails has an error code for it. -/
def Proper (ops : ChunkOps σ) : Prop :=
  ∀ s id t, ops.readChunk s id ≠ some (.error .ok, t)

/-- What answers OK has been done: writes of whole chunks to ids there is
room for, and reads of what is held. Nothing is said of a store after a
failure. -/
structure Honest (ops : ChunkOps σ) (ready : σ → Prop)
    (view : σ → UInt32 → Option Bytes) (room : UInt32 → Prop) : Prop where
  write : ∀ s id b s', ready s → room id → b.length = chunkSizeBytes →
    ops.writeChunk s id b = some (.ok, s') →
    ready s' ∧ ∀ i, view s' i = if i = id then some b else view s i
  read : ∀ s id x s', ready s → ops.readChunk s id = some (.ok x, s') →
    view s id = some x ∧ ready s' ∧ view s' = view s
  available : ∀ s id, ready s →
    (id ∈ ops.available s ↔ (view s id).isSome)

section Logged

variable {ops : ChunkOps σ} {s : σ × List Answer} {t : σ} {id : UInt32}
  {b x : Bytes} {err : ErrorCode}

/-- A write is recorded with its answer. -/
theorem logged_writeChunk (h : ops.writeChunk s.1 id b = some (err, t)) :
    ops.logged.writeChunk s id b
      = some (err, (t, s.2 ++ [{ id := id, err := err }])) := by
  simp only [logged, h]

/-- The record leaves undefined what is. -/
theorem logged_writeChunk_none (h : ops.writeChunk s.1 id b = none) :
    ops.logged.writeChunk s id b = none := by
  simp only [logged, h]

/-- A read that fails is recorded with its error. -/
theorem logged_readChunk_error
    (h : ops.readChunk s.1 id = some (.error err, t)) :
    ops.logged.readChunk s id
      = some (.error err, (t, s.2 ++ [{ id := id, err := err }])) := by
  simp only [logged, h]

/-- A read that succeeds is recorded. -/
theorem logged_readChunk_ok (h : ops.readChunk s.1 id = some (.ok x, t)) :
    ops.logged.readChunk s id
      = some (.ok x, (t, s.2 ++ [{ id := id, err := .ok }])) := by
  simp only [logged, h]

theorem logged_readChunk_none (h : ops.readChunk s.1 id = none) :
    ops.logged.readChunk s id = none := by
  simp only [logged, h]

end Logged

end ChunkOps

/-- The store in memory shows the same chunks. -/
structure Mirrors {σ : Type} (ready : σ → Prop)
    (view : σ → UInt32 → Option Bytes) (s : σ) (m : MemoryStore) :
    Prop where
  ready : ready s
  view : view s = m.chunks
  ids : m.Ready

namespace Mirrors

variable {σ : Type} {ops : ChunkOps σ} {ready : σ → Prop}
  {view : σ → UInt32 → Option Bytes} {room : UInt32 → Prop} {s s' : σ}
  {m : MemoryStore} {id : UInt32} {b x : Bytes}

/-- Store and memory make the same write. -/
theorem write (h : Mirrors ready view s m)
    (hh : ops.Honest ready view room) (hroom : room id)
    (hlen : b.length = chunkSizeBytes)
    (hwrite : ops.writeChunk s id b = some (.ok, s')) :
    ∃ m', MemoryStore.ops.writeChunk m id b = some (.ok, m')
      ∧ Mirrors ready view s' m' := by
  obtain ⟨hready, hview⟩ := hh.write s id b s' h.ready hroom hlen hwrite
  obtain ⟨m', hm', hready', hview'⟩ :=
    (MemoryStore.faithful room).write m id b h.ids hroom hlen
  refine ⟨m', hm', hready, funext fun i => ?_, hready'⟩
  rw [hview, hview', h.view]

/-- Store and memory answer a read alike. -/
theorem read (h : Mirrors ready view s m)
    (hh : ops.Honest ready view room)
    (hread : ops.readChunk s id = some (.ok x, s')) :
    ∃ m', MemoryStore.ops.readChunk m id = some (.ok x, m')
      ∧ Mirrors ready view s' m' := by
  obtain ⟨hx, hready, hview⟩ := hh.read s id x s' h.ready hread
  rw [h.view] at hx
  obtain ⟨m', hm', hready', hview'⟩ :=
    (MemoryStore.faithful room).read m id x h.ids hx
  exact ⟨m', hm', hready, hview.trans (h.view.trans hview'.symm), hready'⟩

/-- Store and memory list the same ids. -/
theorem available (h : Mirrors ready view s m)
    (hh : ops.Honest ready view room) :
    id ∈ ops.available s ↔ id ∈ MemoryStore.ops.available m := by
  rw [hh.available s id h.ready, h.view]
  exact (h.ids id).symm

end Mirrors

/-- As long as it answers OK, an honest store is followed by one in
memory. -/
theorem ChunkOps.Honest.follows {σ : Type} {ops : ChunkOps σ}
    {ready : σ → Prop} {view : σ → UInt32 → Option Bytes}
    {room : UInt32 → Prop} (hh : ops.Honest ready view room)
    (hops : ops.Proper) :
    ops.logged.Follows MemoryStore.ops
      (fun s => ∀ a ∈ s.2, a.err = .ok ∧ room a.id)
      fun s m => Mirrors ready view s.1 m := by
  refine ⟨fun s id b err s' hlen h hgood => ?_,
    fun s id x s' _ h hgood => ?_, fun s m id _ hm => hm.available hh⟩
  · cases hwrite : ops.writeChunk s.1 id b with
    | none =>
        rw [logged_writeChunk_none hwrite] at h
        cases h
    | some r =>
        obtain ⟨err₁, t⟩ := r
        rw [logged_writeChunk hwrite, Option.some.injEq, Prod.mk.injEq] at h
        obtain ⟨rfl, rfl⟩ := h
        obtain ⟨hbefore, hlast⟩ := List.forall_mem_append.1 hgood
        obtain ⟨hok, hroom⟩ := hlast _ (List.mem_singleton_self _)
        obtain rfl : err₁ = .ok := hok
        exact ⟨hbefore, fun m hm => hm.write hh hroom hlen hwrite⟩
  · cases hread : ops.readChunk s.1 id with
    | none =>
        rw [logged_readChunk_none hread] at h
        cases h
    | some r =>
        obtain ⟨y | y, t⟩ := r
        · -- an answer that is not OK is not good
          rw [logged_readChunk_error hread, Option.some.injEq,
            Prod.mk.injEq] at h
          obtain ⟨rfl, rfl⟩ := h
          obtain ⟨-, hlast⟩ := List.forall_mem_append.1 hgood
          obtain ⟨hok, -⟩ := hlast _ (List.mem_singleton_self _)
          obtain rfl : y = .ok := hok
          exact absurd hread (hops _ _ _)
        · rw [logged_readChunk_ok hread, Option.some.injEq,
            Prod.mk.injEq] at h
          obtain ⟨rfl, rfl⟩ := h
          obtain ⟨hbefore, -⟩ := List.forall_mem_append.1 hgood
          exact ⟨hbefore, fun m hm => hm.read hh hread⟩

/-- The record of the answers restricts nothing. -/
theorem ChunkOps.Follows.logged {σ : Type} (ops : ChunkOps σ) :
    ops.Follows ops.logged (fun _ => True) fun s t => t.1 = s := by
  refine ⟨fun s id b err s' _ hwrite _ => ⟨trivial, ?_⟩,
    fun s id x s' _ hread _ => ⟨trivial, ?_⟩, fun s t id _ ht => ?_⟩
  · rintro t rfl
    exact ⟨_, ChunkOps.logged_writeChunk hwrite, rfl⟩
  · rintro t rfl
    cases x with
    | error y => exact ⟨_, ChunkOps.logged_readChunk_error hread, rfl⟩
    | ok y => exact ⟨_, ChunkOps.logged_readChunk_ok hread, rfl⟩
  · rw [← ht]
    rfl

/-- A store in memory answers OK to a builder. -/
theorem MemoryStore.follows_ok :
    MemoryStore.ops.logged.Follows MemoryStore.ops.logged (fun _ => True)
      fun s t => t = s ∧ (s.1.Ready ∧ ∀ a ∈ s.2, a.err = .ok) := by
  have hf := MemoryStore.faithful fun _ => True
  refine .invariant ?_ ?_
  · rintro s id b err s' ⟨hready, hall⟩ hlen hwrite
    obtain ⟨m, hm, hready', -⟩ := hf.write s.1 id b hready trivial hlen
    rw [ChunkOps.logged_writeChunk hm, Option.some.injEq,
      Prod.mk.injEq] at hwrite
    obtain ⟨-, rfl⟩ := hwrite
    exact ⟨hready', List.forall_mem_append.2
      ⟨hall, fun a ha => by rw [List.mem_singleton.1 ha]⟩⟩
  · rintro s id x s' ⟨hready, hall⟩ havail hread
    obtain ⟨c, hc⟩ := Option.isSome_iff_exists.1
      ((hf.available s.1 id hready).1 havail)
    obtain ⟨m, hm, hready', -⟩ := hf.read s.1 id c hready hc
    rw [ChunkOps.logged_readChunk_ok hm, Option.some.injEq,
      Prod.mk.injEq] at hread
    obtain ⟨-, rfl⟩ := hread
    exact ⟨hready', List.forall_mem_append.2
      ⟨hall, fun a ha => by rw [List.mem_singleton.1 ha]⟩⟩

namespace ChunkBuilder

/-- What the store answered to a call that went from `b` to `b'` and
ended with `err`; `own` if the call has an error of its own. -/
structure Outcome {σ : Type} (b b' : ChunkBuilder (σ × List Answer))
    (err : ErrorCode) (own : Prop) (as : List Answer) : Prop where
  log : b'.store.2 = b.store.2 ++ as
  other : ∀ a ∈ as, a.err = .ok ∨ a.err = err
  reason : (∀ a ∈ as, a.err = .ok) → err = .ok ∨ own

section Calls

variable {σ : Type} {ops : ChunkOps σ}
  {b b₁ b₂ b' : ChunkBuilder (σ × List Answer)} {err : ErrorCode}
  {own own' : Prop} {as bs : List Answer}

namespace Outcome

/-- A step that asks nothing of the store. -/
theorem quiet (hstore : b'.store = b.store) (hown : err = .ok ∨ own) :
    Outcome b b' err own [] := by
  refine ⟨?_, fun a ha => (by cases ha), fun _ => hown⟩
  rw [hstore, List.append_nil]

/-- A step that asks for one thing. -/
theorem single {a : Answer} (hlog : b'.store.2 = b.store.2 ++ [a])
    (herr : a.err = err) : Outcome b b' err False [a] := by
  refine ⟨hlog, fun a' ha' => ?_, fun hall => ?_⟩
  · rw [List.mem_singleton.1 ha']
    exact .inr herr
  · exact .inl (herr ▸ hall a (List.mem_singleton_self _))

/-- A call that goes on after another one. -/
theorem trans (h : Outcome b b₁ .ok own as) (h' : Outcome b₁ b' err own' bs) :
    Outcome b b' err own' (as ++ bs) := by
  refine ⟨?_, fun a ha => ?_, fun hall => ?_⟩
  · rw [h'.log, h.log, List.append_assoc]
  · rcases List.mem_append.1 ha with ha | ha
    · exact .inl ((h.other a ha).elim id id)
    · exact h'.other a ha
  · exact h'.reason fun a ha => hall a (List.mem_append_right _ ha)

/-- The same, seen from a caller that was at `b` and goes on at `b'`. -/
theorem mono (h : Outcome b₁ b₂ err own as) (hown : own → own')
    (hb : b₁.store = b.store) (hb' : b₂.store = b'.store) :
    Outcome b b' err own' as := by
  refine ⟨?_, h.other, fun hall => (h.reason hall).imp_right hown⟩
  rw [← hb, ← hb', h.log]

end Outcome

/-- The chunk in memory is written to the store. -/
theorem flush_outcome {store : σ × List Answer}
    (h : ops.logged.writeChunk b.store b.chunkNum
      (b.buff.read 0 chunkSizeBytes) = some (err, store))
    (hstore : b'.store = store) :
    Outcome b b' err False [{ id := b.chunkNum, err := err }] := by
  cases hwrite : ops.writeChunk b.store.1 b.chunkNum
      (b.buff.read 0 chunkSizeBytes) with
  | none =>
      rw [ChunkOps.logged_writeChunk_none hwrite] at h
      cases h
  | some r =>
      obtain ⟨err₁, t⟩ := r
      rw [ChunkOps.logged_writeChunk hwrite, Option.some.injEq,
        Prod.mk.injEq] at h
      obtain ⟨rfl, rfl⟩ := h
      exact .single (by rw [hstore]) rfl

/-- A chunk is read again, or cannot be. -/
theorem reload_outcome {id : UInt32} {x : Except ErrorCode Bytes}
    {store : σ × List Answer}
    (h : ops.logged.readChunk b.store id = some (x, store))
    (hstore : b'.store = store) :
    ∃ err, (x = .error err ∨ err = .ok ∧ ∃ y, x = .ok y)
      ∧ Outcome b b' err False [{ id := id, err := err }] := by
  cases hread : ops.readChunk b.store.1 id with
  | none =>
      rw [ChunkOps.logged_readChunk_none hread] at h
      cases h
  | some r =>
      obtain ⟨y | y, t⟩ := r
      · rw [ChunkOps.logged_readChunk_error hread, Option.some.injEq,
          Prod.mk.injEq] at h
        obtain ⟨rfl, rfl⟩ := h
        exact ⟨y, .inl rfl, .single (by rw [hstore]) rfl⟩
      · rw [ChunkOps.logged_readChunk_ok hread, Option.some.injEq,
          Prod.mk.injEq] at h
        obtain ⟨rfl, rfl⟩ := h
        exact ⟨.ok, .inr ⟨rfl, y, rfl⟩, .single (by rw [hstore]) rfl⟩

/-- `move_pos`. -/
theorem movePos_outcome {n : Nat}
    (h : movePos ops.logged b n = some (err, b')) :
    ∃ as, Outcome b b' err False as := by
  unfold movePos at h
  by_cases hmove : n / chunkSizeBytes ≠ b.chunkNum.toNat
  · rw [if_pos hmove] at h
    cases hwrite : ops.logged.writeChunk b.store b.chunkNum
        (b.buff.read 0 chunkSizeBytes) with
    | none =>
        simp only [hwrite] at h
        cases h
    | some r =>
        obtain ⟨err₁, store⟩ := r
        simp only [hwrite] at h
        by_cases herr : err₁ ≠ .ok
        · rw [if_pos herr, Option.some.injEq, Prod.mk.injEq] at h
          obtain ⟨rfl, rfl⟩ := h
          exact ⟨_, flush_outcome hwrite rfl⟩
        · rw [if_neg herr] at h
          obtain rfl : err₁ = .ok := not_not.1 herr
          have hflush := @flush_outcome σ ops b { b with store := store } .ok
            store hwrite rfl
          split at h
          · cases hread : ops.logged.readChunk store
                (UInt32.ofNat (n / chunkSizeBytes)) with
            | none =>
                simp only [hread] at h
                cases h
            | some r =>
                obtain ⟨x, store'⟩ := r
                cases x with
                | error x =>
                    simp only [hread, Option.some.injEq, Prod.mk.injEq] at h
                    obtain ⟨rfl, rfl⟩ := h
                    obtain ⟨e, he, hout⟩ := @reload_outcome σ ops
                      { b with store := store }
                      { b with store := store', chunkNum := _ } _ _ _ hread rfl
                    rcases he with he | ⟨-, y, hy⟩
                    · cases he
                      exact ⟨_, hflush.trans hout⟩
                    · cases hy
                | ok x =>
                    simp only [hread, Option.some.injEq, Prod.mk.injEq] at h
                    obtain ⟨rfl, rfl⟩ := h
                    obtain ⟨e, he, hout⟩ := @reload_outcome σ ops
                      { b with store := store } { b with
                        store := store', chunkNum := _
                        buff := b.buff.write 0 x, pos := n } _ _ _ hread rfl
                    rcases he with he | ⟨rfl, -⟩
                    · cases he
                    · exact ⟨_, hflush.trans hout⟩
          · rw [Option.some.injEq, Prod.mk.injEq] at h
            obtain ⟨rfl, rfl⟩ := h
            exact ⟨_, hflush.mono id rfl rfl⟩
  · rw [if_neg hmove, Option.some.injEq, Prod.mk.injEq] at h
    obtain ⟨rfl, rfl⟩ := h
    exact ⟨[], .quiet rfl (.inl rfl)⟩

/-- `write_data`. -/
theorem writeData_outcome (data : Bytes) :
    ∀ b, writeData ops.logged b data = some (err, b') →
      ∃ as, Outcome b b' err False as := by
  induction hlen : data.length using Nat.strong_induction_on
    generalizing data with
  | _ n ih =>
      intro b h
      rw [writeData] at h
      by_cases hpos : 0 < data.length
      · rw [dif_pos hpos] at h
        simp only at h
        generalize hnext : min (chunkSizeBytes - b.pos % chunkSizeBytes)
          data.length = next at h
        have hmod := Nat.mod_lt b.pos chunkSizeBytes_pos
        -- the builder after the copy
        generalize hcopy : ({ b with
          buff := b.buff.write (b.pos % chunkSizeBytes) (data.take next)
          pos := usize (b.pos + next) }
            : ChunkBuilder (σ × List Answer)) = b₁ at h
        have hstore : b₁.store = b.store := by rw [← hcopy]
        cases hmove : movePos ops.logged b₁ (usize (b.pos + next)) with
        | none =>
            simp only [hmove] at h
            cases h
        | some r =>
            obtain ⟨err₁, b₂⟩ := r
            simp only [hmove] at h
            obtain ⟨as, hout⟩ := movePos_outcome hmove
            by_cases herr : err₁ ≠ .ok
            · rw [if_pos herr, Option.some.injEq, Prod.mk.injEq] at h
              obtain ⟨rfl, rfl⟩ := h
              exact ⟨as, hout.mono id hstore rfl⟩
            · rw [if_neg herr] at h
              obtain rfl : err₁ = .ok := not_not.1 herr
              obtain ⟨bs, hout'⟩ := ih (data.drop next).length
                (by rw [List.length_drop]; omega) (data.drop next) rfl b₂ h
              exact ⟨as ++ bs, (hout.trans hout').mono id hstore rfl⟩
      · rw [dif_neg hpos, Option.some.injEq, Prod.mk.injEq] at h
        obtain ⟨rfl, rfl⟩ := h
        exact ⟨[], .quiet rfl (.inl rfl)⟩

/-- The loop of `add_file`. A failed read is an error of its own. -/
theorem fileLoop_outcome (fd : Fd) :
    ∀ b length length', fileLoop ops.logged b fd length
        = some (err, length', b') →
      ∃ as, Outcome b b' err (err = .accessDenied) as := by
  induction hlen : fd.rest.length using Nat.strong_induction_on
    generalizing fd with
  | _ n ih =>
      intro b length length' h
      obtain ⟨hrest, hgot⟩ := readLoop_rest fd chunkSizeBytes
      rw [fileLoop] at h
      by_cases hfailed : (readLoop fd chunkSizeBytes).failed = true
      · rw [dif_pos hfailed] at h
        by_cases hnil : (readLoop fd chunkSizeBytes).got = []
        · rw [if_pos hnil] at h
          cases h
        · rw [if_neg hnil] at h
          cases hwrite : writeData ops.logged b
              (readLoop fd chunkSizeBytes).got.dropLast with
          | none =>
              simp only [hwrite] at h
              cases h
          | some r =>
              obtain ⟨err₁, b₁⟩ := r
              simp only [hwrite] at h
              obtain ⟨as, hout⟩ := writeData_outcome _ _ hwrite
              by_cases herr : err₁ ≠ .ok
              · rw [if_pos herr] at h
                rw [Option.some.injEq, Prod.mk.injEq, Prod.mk.injEq] at h
                obtain ⟨rfl, rfl, rfl⟩ := h
                exact ⟨as, hout.mono False.elim rfl rfl⟩
              · rw [if_neg herr] at h
                rw [Option.some.injEq, Prod.mk.injEq, Prod.mk.injEq] at h
                obtain ⟨rfl, rfl, rfl⟩ := h
                obtain rfl : err₁ = .ok := not_not.1 herr
                refine ⟨as, hout.log, fun a ha => ?_, fun _ => .inr rfl⟩
                exact .inl ((hout.other a ha).elim id id)
      · rw [dif_neg hfailed] at h
        cases hwrite : writeData ops.logged b
            (readLoop fd chunkSizeBytes).got with
        | none =>
            simp only [hwrite] at h
            cases h
        | some r =>
            obtain ⟨err₁, b₁⟩ := r
            simp only [hwrite] at h
            obtain ⟨as, hout⟩ := writeData_outcome _ _ hwrite
            by_cases herr : err₁ ≠ .ok
            · rw [if_pos herr] at h
              rw [Option.some.injEq, Prod.mk.injEq, Prod.mk.injEq] at h
              obtain ⟨rfl, rfl, rfl⟩ := h
              exact ⟨as, hout.mono False.elim rfl rfl⟩
            · rw [if_neg herr] at h
              obtain rfl : err₁ = .ok := not_not.1 herr
              by_cases hatEnd : (readLoop fd chunkSizeBytes).atEnd = true
              · rw [dif_pos hatEnd] at h
                rw [Option.some.injEq, Prod.mk.injEq, Prod.mk.injEq] at h
                obtain ⟨rfl, rfl, rfl⟩ := h
                exact ⟨as, hout.mono False.elim rfl rfl⟩
              · rw [dif_neg hatEnd] at h
                have hmore := hgot (by simpa using hfailed)
                  (by simpa using hatEnd)
                obtain ⟨bs, hout'⟩ := ih _ (by omega) _ rfl b₁ _ _ h
                exact ⟨as ++ bs, hout.trans hout'⟩

/-- `add_file`. A file that cannot be opened or read is an error of its
own. -/
theorem addFile_outcome {source : SourceFile} {reply : Reply}
    (h : addFile ops.logged b source = some (reply, b')) :
    ∃ as, Outcome b b' reply.err
      (reply.err = .notFound ∨ reply.err = .accessDenied) as := by
  unfold addFile at h
  cases source with
  | notFound =>
      cases h
      exact ⟨[], .quiet rfl (.inr (.inl rfl))⟩
  | denied =>
      cases h
      exact ⟨[], .quiet rfl (.inr (.inr rfl))⟩
  | opened fd =>
      simp only at h
      cases hloop : fileLoop ops.logged b fd 0 with
      | none =>
          simp only [hloop] at h
          cases h
      | some r =>
          obtain ⟨err, length, b₁⟩ := r
          simp only [hloop] at h
          cases h
          obtain ⟨as, hout⟩ := fileLoop_outcome fd _ _ _ hloop
          exact ⟨as, hout.mono .inr rfl rfl⟩

/-- `reserve`. -/
theorem reserve_outcome {length : Nat} {reply : Reply}
    (h : reserve ops.logged b length = some (reply, b')) :
    ∃ as, Outcome b b' reply.err False as := by
  unfold reserve at h
  cases hmove : movePos ops.logged b (usize (b.pos + length)) with
  | none =>
      simp only [hmove] at h
      cases h
  | some r =>
      obtain ⟨err, b₁⟩ := r
      simp only [hmove] at h
      cases h
      exact movePos_outcome hmove

/-- `write`. -/
theorem write_outcome {offset : Nat} {data : Bytes} {reply : Reply}
    (h : write ops.logged b offset data = some (reply, b')) :
    ∃ as, Outcome b b' reply.err False as := by
  unfold write at h
  cases hmove : movePos ops.logged b offset with
  | none =>
      simp only [hmove] at h
      cases h
  | some r =>
      obtain ⟨err₁, b₁⟩ := r
      simp only [hmove] at h
      obtain ⟨as, hout⟩ := movePos_outcome hmove
      by_cases herr : err₁ ≠ .ok
      · rw [if_pos herr] at h
        cases h
        exact ⟨as, hout⟩
      · rw [if_neg herr] at h
        obtain rfl : err₁ = .ok := not_not.1 herr
        cases hwrite : writeData ops.logged b₁ data with
        | none =>
            simp only [hwrite] at h
            cases h
        | some r =>
            obtain ⟨err, b₂⟩ := r
            simp only [hwrite] at h
            cases h
            obtain ⟨bs, hout'⟩ := writeData_outcome _ _ hwrite
            exact ⟨as ++ bs, hout.trans hout'⟩

/-- `build`. -/
theorem build_outcome (h : build ops.logged b = some (err, b')) :
    ∃ as, Outcome b b' err False as := by
  unfold build at h
  cases hwrite : ops.logged.writeChunk b.store b.chunkNum
      (b.buff.read 0 chunkSizeBytes) with
  | none =>
      simp only [hwrite] at h
      cases h
  | some r =>
      obtain ⟨err₁, store⟩ := r
      simp only [hwrite] at h
      cases h
      exact ⟨_, flush_outcome hwrite rfl⟩

end Calls

end ChunkBuilder

end Distfs

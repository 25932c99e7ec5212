/-
Moving one chunk between two nodes: the server's splitter
(`DistfsService::GetChunk`) and the client's fetch loop
(`ConnectionPool::fetch_chunk`, `connection_for_block`).

# The client's environment

`fetch_chunk` retries until it returns. What an iteration of its loop
meets is a `Round`: the connections at that moment with the stream each
would answer, and the random draw. A call is a run over a list of
rounds; `running` says the list ended first. Nothing is assumed of the
streams: an aborted or truncated one is a shorter list of parts with a
status that is not ok.

# Memory

One receive buffer serves all attempts. A copy that leaves its
`CHUNK_SIZE_BYTES` bytes and an index past `get_hashes()` are `fault`:
the code checks neither.

# Results

- `fetchChunk_writes`: what reaches the store is the concatenation of
  the parts of one attempt, whatever was left in the buffer before.
- `getChunk_ok`: the server's parts concatenate to the chunk.
- `fetchChunk_inRange_iff`: exactly which rounds fault.

The `ClientContext` the attempts share belongs to gRPC; a call that
gRPC refuses is an attempt with no parts and a status that is not ok.
-/
import Distfs.Data.ChunkStore
import Distfs.Network.ChunkAvailability

namespace Distfs

open Transfer

-- ======================================================= the server

/-- The status a call ends with, as far as the code tells them apart. -/
inductive GrpcStatus where
  | ok
  | notFound
  | internal
  | cancelled
  deriving DecidableEq, Repr

/-- What one `GetChunk` call streams: the data of the response parts
that arrive, and whether the final status is ok. -/
structure Stream where
  parts : List Bytes
  ok : Bool

/-- All bytes of a stream, in order. -/
def Stream.bytes (st : Stream) : Bytes := st.parts.flatten

namespace DistfsService

/-- The write loop of `GetChunk` from `offset` on. `accepts` says which
of the coming `writer->Write` calls succeed; past its end all do. -/
def sendParts (buff : Bytes) (offset : Nat) (accepts : List Bool) :
    GrpcStatus × List Bytes :=
  if _h : offset < buff.length then
    let len := min wireChunkSizeBytes (buff.length - offset)
    if accepts.headD true then
      let r := sendParts buff (offset + len) accepts.tail
      (r.1, (buff.drop offset).take len :: r.2)
    else (.cancelled, [])
  else (.ok, [])
termination_by buff.length - offset
decreasing_by
  have := wireChunkSizeBytes_pos
  omega

/-- `DistfsService::GetChunk`. -/
def getChunk (store : ChunkStore) (io : Io) (id : UInt32)
    (accepts : List Bool) :
    Option ((GrpcStatus × List Bytes) × ChunkStore) :=
  match store.readChunk io id with
  | none => none
  | some (.error .notFound, store) => some ((.notFound, []), store)
  | some (.error _, store) => some ((.internal, []), store)
  | some (.ok buff, store) => some (sendParts buff 0 accepts, store)

/-- The stream a client sees of a call that was not cut off. -/
def asStream (r : GrpcStatus × List Bytes) : Stream :=
  { parts := r.2, ok := r.1 = .ok }

/-- With every write accepted the loop ends ok, its parts are non-empty
and at most `WIRE_CHUNK_SIZE_BYTES` long, and they concatenate to what
is left of the buffer. -/
theorem sendParts_ok (buff : Bytes) :
    ∀ (offset : Nat) (accepts : List Bool), (∀ a ∈ accepts, a = true) →
      (sendParts buff offset accepts).1 = .ok
        ∧ (sendParts buff offset accepts).2.flatten = buff.drop offset
        ∧ ∀ p ∈ (sendParts buff offset accepts).2,
            p ≠ [] ∧ p.length ≤ wireChunkSizeBytes := by
  intro offset
  induction hleft : buff.length - offset using Nat.strong_induction_on
    generalizing offset with
  | _ n ih =>
      intro accepts haccepts
      have hwire := wireChunkSizeBytes_pos
      have hhead : accepts.headD true = true := by
        cases accepts with
        | nil => rfl
        | cons a accepts => exact haccepts a List.mem_cons_self
      have htail : ∀ a ∈ accepts.tail, a = true := fun a ha =>
        haccepts a (List.mem_of_mem_tail ha)
      rw [sendParts]
      split
      · next hlt =>
        obtain ⟨hok, hcat, hparts⟩ := ih
          (buff.length - (offset + min wireChunkSizeBytes
            (buff.length - offset))) (by omega) _ rfl _ htail
        refine ⟨hok, ?_, ?_⟩
        · rw [List.flatten_cons, hcat, ← List.drop_drop,
            List.take_append_drop]
        · intro p hp
          rcases List.mem_cons.1 hp with hp | hp
          · have hlen : p.length
                = min wireChunkSizeBytes (buff.length - offset) := by
              rw [hp, List.length_take, List.length_drop]
              omega
            refine ⟨fun hnil => ?_, by omega⟩
            rw [hnil, List.length_nil] at hlen
            omega
          · exact hparts p hp
      · next hge =>
        refine ⟨rfl, ?_, by simp⟩
        rw [List.drop_eq_nil_of_le (by omega)]
        rfl

/-- A server whose store holds `b` streams `b`. -/
theorem getChunk_ok {store store' : ChunkStore} {io : Io} {id : UInt32}
    {b : Bytes} {accepts : List Bool} {r : GrpcStatus × List Bytes}
    (hc : store.collector.Coherent) (hio : io.AllOk)
    (haccepts : ∀ a ∈ accepts, a = true) (hfile : store.fileOf id = some b)
    (hlen : b.length ≤ chunkSizeBytes)
    (h : getChunk store io id accepts = some (r, store')) :
    r.1 = .ok ∧ r.2.flatten = b
      ∧ ∀ p ∈ r.2, p ≠ [] ∧ p.length ≤ wireChunkSizeBytes := by
  cases ht : store.touch io id with
  | none =>
      simp only [getChunk, ChunkStore.readChunk, hio.openOk, hfile, ht,
        Bool.false_eq_true, if_false] at h
      cases h
  | some t =>
      obtain ⟨t', hread, -⟩ := ChunkStore.readChunk_ok hc hio hfile hlen
        (ChunkStore.touch_pos hc ht)
      simp only [getChunk, hread, Option.some.injEq, Prod.mk.injEq] at h
      rw [← h.1]
      exact sendParts_ok b 0 accepts haccepts

end DistfsService

-- ======================================================= the client

namespace ConnectionPool

/-- A connection as `fetch_chunk` meets it in one iteration: what it
advertises and the stream it would answer. -/
structure Peer where
  availability : ChunkAvailability
  answer : Stream

/-- What one iteration of the loop meets. -/
structure Round where
  connections : List Peer
  draw : Nat

/-- `connection_for_block`: a random connection among those that
advertise the chunk. -/
def connectionForBlock (r : Round) (id : UInt32) : Option Stream :=
  let a := (r.connections.filter fun c => c.availability.contains id).map
    Peer.answer
  a[r.draw % a.length]?

/-- The receive loop: copy every part behind the ones before, `none`
when a copy leaves the buffer. -/
def receive (buff : Mem) (offset : Nat) : List Bytes → Option (Mem × Nat)
  | [] => some (buff, offset)
  | part :: parts =>
      if offset + part.length ≤ chunkSizeBytes then
        receive (buff.write offset part) (uint32 (offset + part.length)) parts
      else none

/-- How a call ends. -/
inductive FetchEnd where
  | ret (code : ErrorCode)
  | fault
  | running
  deriving DecidableEq, Repr

variable (checksum : Bytes → Bytes) (hashes : List Bytes) (id : UInt32)

/-- `fetch_chunk`: how the call ends, and the chunks it passed to
`store.write_chunk`. -/
def fetchChunk (buff : Mem) : List Round → FetchEnd × List (UInt32 × Bytes)
  | [] => (.running, [])
  | r :: rs =>
      match connectionForBlock r id with
      | none => (.ret .notFound, [])
      | some st =>
          match receive buff 0 st.parts with
          | none => (.fault, [])
          | some (buff, offset) =>
              if st.ok then
                match hashes[id.toNat]? with
                | none => (.fault, [])
                | some hash =>
                    if checksum (buff.read 0 offset) ≠ hash then
                      fetchChunk buff rs
                    else (.ret .ok, [(id, buff.read 0 offset)])
              else fetchChunk buff rs

variable {checksum hashes id}

theorem connectionForBlock_mem {r : Round} {st : Stream}
    (h : connectionForBlock r id = some st) :
    ∃ c ∈ r.connections, c.availability.contains id = true
      ∧ c.answer = st := by
  have hmem := List.mem_of_getElem? h
  obtain ⟨c, hc, hst⟩ := List.mem_map.1 hmem
  obtain ⟨hc, hadv⟩ := List.mem_filter.1 hc
  exact ⟨c, hc, hadv, hst⟩

-- ==================================================== one attempt

/-- The receive loop copies every part exactly when all of them fit
together, and the bytes received so far are then the ones that were
there, followed by the parts. -/
theorem receive_eq (parts : List Bytes) :
    ∀ (buff : Mem) (offset : Nat), offset ≤ chunkSizeBytes →
      if offset + parts.flatten.length ≤ chunkSizeBytes then
        ∃ buff', receive buff offset parts
            = some (buff', offset + parts.flatten.length)
          ∧ buff'.read 0 (offset + parts.flatten.length)
            = buff.read 0 offset ++ parts.flatten
      else receive buff offset parts = none := by
  induction parts with
  | nil =>
      intro buff offset hoff
      rw [List.flatten_nil, List.length_nil, if_pos (by omega)]
      exact ⟨buff, rfl, (List.append_nil _).symm⟩
  | cons part parts ih =>
      intro buff offset hoff
      rw [List.flatten_cons, List.length_append, receive]
      by_cases hpart : offset + part.length ≤ chunkSizeBytes
      · have hchunk := chunkSizeBytes_eq
        rw [if_pos hpart, uint32_of_lt (by omega)]
        have hrest := ih (buff.write offset part) (offset + part.length) hpart
        rw [Nat.add_assoc] at hrest
        split
        · next hfit =>
          rw [if_pos hfit] at hrest
          obtain ⟨buff', hrec, hread⟩ := hrest
          refine ⟨buff', hrec, ?_⟩
          have hwrite := Mem.read_write_self buff offset part
          have hkeep : (buff.write offset part).read 0 offset
              = buff.read 0 offset :=
            Mem.read_write_disjoint _ (Or.inl (by omega))
          rw [hread, Mem.read_add, Nat.zero_add, hwrite, hkeep,
            List.append_assoc]
        · next hfit =>
          rw [if_neg hfit] at hrest
          exact hrest
      · rw [if_neg hpart, if_neg (by omega)]

/-- An attempt whose parts fit leaves exactly its bytes at the front of
the buffer, whatever the buffer held. -/
theorem receive_fits {parts : List Bytes} (buff : Mem)
    (h : parts.flatten.length ≤ chunkSizeBytes) :
    ∃ buff', receive buff 0 parts = some (buff', parts.flatten.length)
      ∧ buff'.read 0 parts.flatten.length = parts.flatten := by
  have hrec := receive_eq parts buff 0 (Nat.zero_le _)
  rw [Nat.zero_add, if_pos h] at hrec
  exact hrec

theorem receive_overflows {parts : List Bytes} (buff : Mem)
    (h : ¬ parts.flatten.length ≤ chunkSizeBytes) :
    receive buff 0 parts = none := by
  have hrec := receive_eq parts buff 0 (Nat.zero_le _)
  rw [Nat.zero_add, if_neg h] at hrec
  exact hrec

/-- The attempt ends the call with success: an ok status, and content
with the listed hash. -/
def Accepted (checksum : Bytes → Bytes) (hashes : List Bytes) (id : UInt32)
    (st : Stream) : Prop :=
  st.ok = true ∧ hashes[id.toNat]? = some (checksum st.bytes)

/-- The attempt touches nothing out of range: its parts fit the buffer,
and if it ends ok the id has a hash. -/
def InRange (hashes : List Bytes) (id : UInt32) (st : Stream) : Prop :=
  st.bytes.length ≤ chunkSizeBytes
    ∧ (st.ok = true → id.toNat < hashes.length)

/-- One iteration of the loop, by what the chosen connection answers. -/
theorem fetchChunk_cons (buff : Mem) (r : Round) (rs : List Round) :
    (connectionForBlock r id = none
        ∧ fetchChunk checksum hashes id buff (r :: rs)
          = (.ret .notFound, []))
      ∨ ∃ st, connectionForBlock r id = some st
        ∧ ((¬ InRange hashes id st
            ∧ fetchChunk checksum hashes id buff (r :: rs) = (.fault, []))
          ∨ (InRange hashes id st ∧ Accepted checksum hashes id st
            ∧ fetchChunk checksum hashes id buff (r :: rs)
              = (.ret .ok, [(id, st.bytes)]))
          ∨ (InRange hashes id st ∧ ¬ Accepted checksum hashes id st
            ∧ ∃ buff', fetchChunk checksum hashes id buff (r :: rs)
              = fetchChunk checksum hashes id buff' rs)) := by
  rw [fetchChunk]
  cases hst : connectionForBlock r id with
  | none => exact Or.inl ⟨rfl, rfl⟩
  | some st =>
      refine Or.inr ⟨st, rfl, ?_⟩
      by_cases hfit : st.bytes.length ≤ chunkSizeBytes
      · obtain ⟨buff', hrec, hread⟩ := receive_fits buff hfit
        simp only [hrec]
        by_cases hok : st.ok = true
        · rw [if_pos hok]
          cases hhash : hashes[id.toNat]? with
          | none =>
              refine Or.inl ⟨fun hin => ?_, rfl⟩
              have hlt := hin.2 hok
              rw [List.getElem?_eq_getElem hlt] at hhash
              cases hhash
          | some hash =>
              obtain ⟨hlt, -⟩ := List.getElem?_eq_some_iff.1 hhash
              have hin : InRange hashes id st := ⟨hfit, fun _ => hlt⟩
              simp only [hread]
              by_cases hsum : checksum st.parts.flatten = hash
              · have hacc : Accepted checksum hashes id st :=
                  ⟨hok, by rw [hhash, ← hsum]; rfl⟩
                rw [if_neg (not_not.2 hsum)]
                exact Or.inr (Or.inl ⟨hin, hacc, rfl⟩)
              · have hrej : ¬ Accepted checksum hashes id st := by
                  intro hacc
                  have hsame := hacc.2
                  rw [hhash, Option.some.injEq] at hsame
                  exact hsum hsame.symm
                rw [if_pos hsum]
                exact Or.inr (Or.inr ⟨hin, hrej, buff', rfl⟩)
        · rw [if_neg hok]
          exact Or.inr (Or.inr ⟨⟨hfit, fun h => absurd h hok⟩,
            fun hacc => hok hacc.1, buff', rfl⟩)
      · simp only [receive_overflows buff hfit]
        exact Or.inl ⟨fun hin => hfit hin.1, trivial⟩

-- ================================================== all attempts

/-- A chunk passed to the store is one accepted attempt's bytes. -/
theorem fetchChunk_writes (rounds : List Round) :
    ∀ buff : Mem, ∀ w ∈ (fetchChunk checksum hashes id buff rounds).2,
      w.1 = id ∧ ∃ r ∈ rounds, ∃ st, connectionForBlock r id = some st
        ∧ Accepted checksum hashes id st ∧ w.2 = st.bytes := by
  induction rounds with
  | nil => simp [fetchChunk]
  | cons r rs ih =>
      intro buff w hw
      rcases @fetchChunk_cons checksum hashes
          id buff r rs with
        ⟨-, heq⟩ | ⟨st, hst, ⟨-, heq⟩ | ⟨-, hacc, heq⟩ | ⟨-, -, buff', heq⟩⟩
      · rw [heq] at hw
        cases hw
      · rw [heq] at hw
        cases hw
      · rw [heq] at hw
        obtain rfl := List.mem_singleton.1 hw
        exact ⟨rfl, r, List.mem_cons_self, st, hst, hacc, rfl⟩
      · rw [heq] at hw
        obtain ⟨hid, r', hr', hrest⟩ := ih buff' w hw
        exact ⟨hid, r', List.mem_cons_of_mem _ hr', hrest⟩

/-- The call stays in range exactly when every attempt it gets to does:
one whose predecessors were all answered and none accepted. -/
theorem fetchChunk_inRange (rounds : List Round) :
    ∀ buff : Mem, (fetchChunk checksum hashes id buff rounds).1 ≠ .fault
      ↔ ∀ pre r post, rounds = pre ++ r :: post →
        (∀ q ∈ pre, ∃ st, connectionForBlock q id = some st
          ∧ ¬ Accepted checksum hashes id st) →
        ∀ st, connectionForBlock r id = some st → InRange hashes id st := by
  induction rounds with
  | nil =>
      intro buff
      refine ⟨fun _ pre r post h => ?_, fun _ h => by cases h⟩
      simp at h
  | cons r rs ih =>
      intro buff
      rcases @fetchChunk_cons checksum hashes id buff r rs with
        ⟨hnone, heq⟩ | ⟨st, hst, ⟨hout, heq⟩ | ⟨hin, hacc, heq⟩
          | ⟨hin, hrej, buff', heq⟩⟩
      · rw [heq]
        refine ⟨fun _ pre q post hrounds hpre st hq => ?_,
          fun _ h => by cases h⟩
        cases pre with
        | nil =>
            injection hrounds with hr
            rw [← hr, hnone] at hq
            cases hq
        | cons p pre =>
            injection hrounds with hr
            obtain ⟨st', hst', -⟩ := hpre p List.mem_cons_self
            rw [← hr, hnone] at hst'
            cases hst'
      · rw [heq]
        refine ⟨fun h => absurd rfl h, fun h => ?_⟩
        exact absurd (h [] r rs rfl (by simp) st hst) hout
      · rw [heq]
        refine ⟨fun _ pre q post hrounds hpre st' hq => ?_,
          fun _ h => by cases h⟩
        cases pre with
        | nil =>
            injection hrounds with hr
            rw [← hr, hst, Option.some.injEq] at hq
            rwa [← hq]
        | cons p pre =>
            injection hrounds with hr
            obtain ⟨st'', hst'', hrej⟩ := hpre p List.mem_cons_self
            rw [← hr, hst, Option.some.injEq] at hst''
            rw [← hst''] at hrej
            exact absurd hacc hrej
      · rw [heq, ih buff']
        constructor
        · intro h pre q post hrounds hpre st' hq
          cases pre with
          | nil =>
              injection hrounds with hr
              rw [← hr, hst, Option.some.injEq] at hq
              rwa [← hq]
          | cons p pre =>
              injection hrounds with _ hrs
              exact h pre q post hrs
                (fun q hq => hpre q (List.mem_cons_of_mem _ hq)) st' hq
        · intro h pre q post hrs hpre
          refine h (r :: pre) q post (by rw [hrs]; rfl) ?_
          intro q hq
          rcases List.mem_cons.1 hq with rfl | hq
          · exact ⟨st, hst, hrej⟩
          · exact hpre q hq

/-- The first attempt, when it is accepted, is stored. -/
theorem fetchChunk_accepted (buff : Mem) {r : Round} {st : Stream}
    (rs : List Round) (hst : connectionForBlock r id = some st)
    (hin : InRange hashes id st) (hacc : Accepted checksum hashes id st) :
    fetchChunk checksum hashes id buff (r :: rs)
      = (.ret .ok, [(id, st.bytes)]) := by
  rcases @fetchChunk_cons checksum hashes
      id buff r rs with
    ⟨hnone, -⟩ | ⟨st', hst', hcase⟩
  · rw [hst] at hnone
    cases hnone
  · rw [hst, Option.some.injEq] at hst'
    subst hst'
    rcases hcase with ⟨hout, -⟩ | ⟨-, -, heq⟩ | ⟨-, hrej, -⟩
    · exact absurd hin hout
    · exact heq
    · exact absurd hacc hrej

/-- Transfer integrity. For an id with a hash, whatever the peers do
within the buffer's size: the only chunks that reach the store are, for
that id, the concatenation of the parts of one attempt that ended ok and
has the listed hash. And a peer that runs `GetChunk` on a store holding
`b` streams non-empty parts of at most `WIRE_CHUNK_SIZE_BYTES` that
concatenate to `b`, so that one uninterrupted attempt stores `b`. -/
theorem fetchChunk_integrity (checksum : Bytes → Bytes)
    (hashes : List Bytes) (id : UInt32) (hid : id.toNat < hashes.length) :
    (∀ (buff : Mem) (rounds : List Round),
      (∀ r ∈ rounds, ∀ c ∈ r.connections,
        c.answer.bytes.length ≤ chunkSizeBytes) →
      (fetchChunk checksum hashes id buff rounds).1 ≠ .fault
        ∧ ∀ w ∈ (fetchChunk checksum hashes id buff rounds).2,
          w.1 = id ∧ ∃ r ∈ rounds, ∃ st, connectionForBlock r id = some st
            ∧ st.ok = true ∧ w.2 = st.parts.flatten
            ∧ hashes[id.toNat]? = some (checksum w.2))
    ∧ ∀ (store store' : ChunkStore) (io : Io) (accepts : List Bool)
        (reply : GrpcStatus × List Bytes) (b : Bytes),
      store.collector.Coherent → io.AllOk → (∀ a ∈ accepts, a = true) →
      store.fileOf id = some b → b.length ≤ chunkSizeBytes →
      DistfsService.getChunk store io id accepts = some (reply, store') →
      reply.1 = .ok ∧ reply.2.flatten = b
        ∧ (∀ p ∈ reply.2, p ≠ [] ∧ p.length ≤ wireChunkSizeBytes)
        ∧ ∀ (buff : Mem) (r : Round) (rs : List Round),
          connectionForBlock r id = some (DistfsService.asStream reply) →
          hashes[id.toNat]? = some (checksum b) →
          fetchChunk checksum hashes id buff (r :: rs)
            = (.ret .ok, [(id, b)]) := by
  refine ⟨fun buff rounds hfit => ⟨?_, ?_⟩, ?_⟩
  · rw [fetchChunk_inRange]
    intro pre r post hrounds _ st hst
    obtain ⟨c, hc, -, rfl⟩ := connectionForBlock_mem hst
    refine ⟨hfit r ?_ c hc, fun _ => hid⟩
    rw [hrounds]
    exact List.mem_append_right _ List.mem_cons_self
  · intro w hw
    obtain ⟨hwid, r, hr, st, hst, hacc, hbytes⟩ :=
      fetchChunk_writes rounds buff w hw
    refine ⟨hwid, r, hr, st, hst, hacc.1, hbytes, ?_⟩
    rw [hbytes]
    exact hacc.2
  · intro store store' io accepts reply b hc hio haccepts hfile hlen hget
    obtain ⟨hok, hcat, hparts⟩ :=
      DistfsService.getChunk_ok hc hio haccepts hfile hlen hget
    refine ⟨hok, hcat, hparts, fun buff r rs hst hhash => ?_⟩
    have hbytes : (DistfsService.asStream reply).bytes = b := hcat
    have hin : InRange hashes id (DistfsService.asStream reply) := by
      refine ⟨?_, fun _ => hid⟩
      rw [hbytes]
      exact hlen
    have hacc : Accepted checksum hashes id
        (DistfsService.asStream reply) := by
      refine ⟨?_, ?_⟩
      · simp [DistfsService.asStream, hok]
      · rw [hbytes]
        exact hhash
    rw [fetchChunk_accepted buff rs hst hin hacc, hbytes]

/-- A round in which one peer advertises `n` and answers `st`. -/
def oneRound (n : UInt32) (st : Stream) : Round :=
  { connections := [{ availability := { chunks := {n} }, answer := st }],
    draw := 0 }

theorem connectionForBlock_oneRound (n : UInt32) (st : Stream) :
    connectionForBlock (oneRound n st) n = some st := by
  simp [connectionForBlock, oneRound, ChunkAvailability.contains]

/-- A peer that breaks off, and one that delivers two bytes. -/
def twoBytes : List Round :=
  [oneRound 0 { parts := [[9, 9, 9]], ok := false },
    oneRound 0 { parts := [[1], [2]], ok := true }]

/-- The call writes them, and nothing else. -/
theorem fetchChunk_integrity_two_bytes :
    (fetchChunk (fun b => b) [[1, 2]] 0 (fun _ => 255) twoBytes).1 = .ret .ok
      ∧ (fetchChunk (fun b => b) [[1, 2]] 0 (fun _ => 255) twoBytes).2.length
        = 1
      ∧ ∀ w ∈ (fetchChunk (fun b => b) [[1, 2]] 0 (fun _ => 255) twoBytes).2,
        w = (0, [1, 2]) := by
  obtain ⟨-, hwrites⟩ := (fetchChunk_integrity (fun b => b) [[1, 2]] 0
    (by decide)).1 (fun _ => 255) twoBytes (by decide)
  refine ⟨by decide, by decide, fun w hw => ?_⟩
  obtain ⟨hid, -, -, -, -, -, -, hhash⟩ := hwrites w hw
  exact Prod.ext hid (Option.some.inj hhash).symm

/-- The call stays in range exactly when every attempt it gets to does:
its parts fit the buffer together, and it ends ok only if the id has a
hash. The call gets to an attempt when some connection advertises the
id and every attempt before was answered and not accepted. -/
theorem fetchChunk_inRange_iff (checksum : Bytes → Bytes)
    (hashes : List Bytes) (id : UInt32) (buff : Mem) (rounds : List Round) :
    (fetchChunk checksum hashes id buff rounds).1 ≠ .fault
      ↔ ∀ pre r post, rounds = pre ++ r :: post →
        (∀ q ∈ pre, ∃ st, connectionForBlock q id = some st
          ∧ ¬ Accepted checksum hashes id st) →
        ∀ st, connectionForBlock r id = some st →
          st.bytes.length ≤ chunkSizeBytes
            ∧ (st.ok = true → id.toNat < hashes.length) :=
  fetchChunk_inRange rounds buff

/-- Two parts that are too long together overrun the buffer. -/
theorem fetchChunk_two_parts {a b : Bytes} (n : UInt32) (buff : Mem)
    (hlen : chunkSizeBytes < a.length + b.length) :
    (fetchChunk checksum hashes n buff
      [oneRound n { parts := [a, b], ok := true }]).1 = .fault := by
  have hover : ¬ [a, b].flatten.length ≤ chunkSizeBytes := by
    rw [List.flatten_cons, List.flatten_singleton, List.length_append]
    omega
  simp only [fetchChunk, connectionForBlock_oneRound,
    receive_overflows buff hover]

/-- A peer that streams two parts of three megabytes overruns the
buffer; a peer that advertises chunk 3 of a file system of three chunks
makes the code read a hash that is not there. -/
theorem fetchChunk_faults :
    (fetchChunk (fun b => b) [[1]] 0 (fun _ => 0)
      [oneRound 0 { parts := [List.replicate 3000000 7,
        List.replicate 3000000 7], ok := true }]).1 = .fault
      ∧ (fetchChunk (fun b => b) [[1], [2], [3]] 3 (fun _ => 0)
        [oneRound 3 { parts := [[1]], ok := true }]).1 = .fault := by
  refine ⟨fetchChunk_two_parts 0 _ ?_, by decide⟩
  rw [List.length_replicate, chunkSizeBytes_eq]
  omega

end ConnectionPool

end Distfs

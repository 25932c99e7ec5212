/-
`fetch_chunk` against peers that never deliver.

The loop has two exits: a chunk with the right checksum, and no
connection that advertises the id. A failed attempt changes neither the
connections nor what they advertise, so there is nothing that decreases:
with one advertising connection, and none that delivers, the loop does
not end (`ends_iff`). It asks on for ever if no answer is too long for
the buffer (`running_of_bad`).
-/
import Distfs.Network.ChunkTransfer

namespace Distfs

namespace ConnectionPool

/-- What the first `n` attempts meet. -/
def rounds (peers : Nat → List Peer) (draws : Nat → Nat) (n : Nat) :
    List Round :=
  (List.range n).map fun k => { connections := peers k, draw := draws k }

/-- Nobody changes the connections or what they advertise. -/
def Unchanged (peers : Nat → List Peer) : Prop :=
  ∀ k, (peers k).map Peer.availability = (peers 0).map Peer.availability

/-- The answer is an error status, or data without the listed checksum
(which a stream that was cut off is as well). -/
def Bad (checksum : Bytes → Bytes) (hashes : List Bytes) (id : UInt32)
    (st : Stream) : Prop :=
  st.ok = false ∨ hashes[id.toNat]? ≠ some (checksum st.bytes)

/-- The call leaves with an error code after finitely many attempts. -/
def Ends (checksum : Bytes → Bytes) (hashes : List Bytes) (id : UInt32)
    (buff : Mem) (peers : Nat → List Peer) (draws : Nat → Nat) : Prop :=
  ∃ n code, code ≠ .ok
    ∧ (fetchChunk checksum hashes id buff (rounds peers draws n)).1
      = .ret code

variable {checksum : Bytes → Bytes} {hashes : List Bytes} {id : UInt32}
  {peers : Nat → List Peer} {draws : Nat → Nat}

theorem Bad.not_accepted {st : Stream} (h : Bad checksum hashes id st) :
    ¬ Accepted checksum hashes id st := by
  rintro ⟨hok, hsum⟩
  rcases h with hfail | hwrong
  · rw [hok] at hfail
    cases hfail
  · exact hwrong hsum

/-- A connection is chosen exactly if one advertises the id. -/
theorem connectionForBlock_eq_none {r : Round} :
    connectionForBlock r id = none
      ↔ ∀ a ∈ r.connections.map Peer.availability,
        a.contains id = false := by
  simp only [connectionForBlock, List.getElem?_eq_none_iff]
  constructor
  · intro hlen a ha
    obtain ⟨c, hc, rfl⟩ := List.mem_map.1 ha
    cases hadv : c.availability.contains id with
    | false => rfl
    | true =>
        have hmem : c ∈ r.connections.filter fun c =>
            c.availability.contains id := List.mem_filter.2 ⟨hc, hadv⟩
        have hlt := Nat.mod_lt r.draw (List.length_pos_of_mem hmem)
        rw [List.length_map] at hlen
        omega
  · intro hnone
    have hnil : (r.connections.filter fun c => c.availability.contains id)
        = [] := by
      refine List.filter_eq_nil_iff.2 fun c hc hadv => ?_
      rw [hnone _ (List.mem_map_of_mem hc)] at hadv
      cases hadv
    rw [hnil]
    exact Nat.zero_le _

/-- While each attempt gets an answer and it is bad, no attempt ends the
call with an error code. -/
theorem not_ret_of_bad (rs : List Round) :
    ∀ buff : Mem,
      (∀ r ∈ rs, ∃ st, connectionForBlock r id = some st
        ∧ Bad checksum hashes id st) →
      ∀ code, (fetchChunk checksum hashes id buff rs).1 ≠ .ret code := by
  induction rs with
  | nil =>
      intro buff _ code h
      cases h
  | cons r rs ih =>
      intro buff hbad code
      obtain ⟨st, hst, hanswer⟩ := hbad r List.mem_cons_self
      have hrest := fun r' hr' => hbad r' (List.mem_cons_of_mem r hr')
      rcases @fetchChunk_cons checksum hashes id buff r rs
        with ⟨hnone, -⟩ | ⟨st', hst', hcase⟩
      · rw [hst] at hnone
        cases hnone
      · rw [hst, Option.some.injEq] at hst'
        subst hst'
        rcases hcase with ⟨-, heq⟩ | ⟨-, hacc, -⟩ | ⟨-, -, buff', heq⟩
        · rw [heq]
          exact fun h => by cases h
        · exact absurd hacc hanswer.not_accepted
        · rw [heq]
          exact ih buff' hrest code

/-- And if the answers are within the buffer, and the id has a hash, the
next attempt follows. -/
theorem running_of_bad (rs : List Round) :
    ∀ buff : Mem,
      (∀ r ∈ rs, ∃ st, connectionForBlock r id = some st
        ∧ Bad checksum hashes id st ∧ InRange hashes id st) →
      fetchChunk checksum hashes id buff rs = (.running, []) := by
  induction rs with
  | nil => exact fun _ _ => rfl
  | cons r rs ih =>
      intro buff hbad
      obtain ⟨st, hst, hanswer, hin⟩ := hbad r List.mem_cons_self
      have hrest := fun r' hr' => hbad r' (List.mem_cons_of_mem r hr')
      rcases @fetchChunk_cons checksum hashes id buff r rs
        with ⟨hnone, -⟩ | ⟨st', hst', hcase⟩
      · rw [hst] at hnone
        cases hnone
      · rw [hst, Option.some.injEq] at hst'
        subst hst'
        rcases hcase with ⟨hout, -⟩ | ⟨-, hacc, -⟩ | ⟨-, -, buff', heq⟩
        · exact absurd hin hout
        · exact absurd hacc hanswer.not_accepted
        · rw [heq]
          exact ih buff' hrest

/-- An attempt of an unchanged pool that some connection could serve gets
the answer of one. -/
theorem answer_of_unchanged (hsame : Unchanged peers)
    (hbad : ∀ k, ∀ c ∈ peers k, c.availability.contains id = true →
      Bad checksum hashes id c.answer) {a : ChunkAvailability}
    (ha : a ∈ (peers 0).map Peer.availability) (hadv : a.contains id = true)
    (n : Nat) :
    ∀ r ∈ rounds peers draws n, ∃ st, connectionForBlock r id = some st
      ∧ Bad checksum hashes id st := by
  intro r hr
  obtain ⟨k, -, rfl⟩ := List.mem_map.1 hr
  cases hst : connectionForBlock { connections := peers k, draw := draws k }
      id with
  | none =>
      have hno := connectionForBlock_eq_none.1 hst a
        (by rw [hsame k]; exact ha)
      rw [hadv] at hno
      cases hno
  | some st =>
      obtain ⟨c, hc, hcadv, rfl⟩ := connectionForBlock_mem hst
      exact ⟨_, rfl, hbad k c hc hcadv⟩

/-- Against connections that are not changed and never deliver the call
ends exactly if none of them advertises the id. -/
theorem ends_iff (checksum : Bytes → Bytes) (hashes : List Bytes)
    (id : UInt32) (buff : Mem) (peers : Nat → List Peer) (draws : Nat → Nat)
    (hsame : Unchanged peers)
    (hbad : ∀ k, ∀ c ∈ peers k, c.availability.contains id = true →
      Bad checksum hashes id c.answer) :
    Ends checksum hashes id buff peers draws
      ↔ ∀ c ∈ peers 0, c.availability.contains id = false := by
  constructor
  · rintro ⟨n, code, -, hret⟩ c hc
    cases hadv : c.availability.contains id with
    | false => rfl
    | true =>
        have hanswer := @answer_of_unchanged checksum hashes id peers draws
          hsame hbad _ (List.mem_map_of_mem hc) hadv n
        exact absurd hret (not_ret_of_bad _ buff hanswer code)
  · intro hnone
    refine ⟨1, .notFound, by decide, ?_⟩
    have hchoice : connectionForBlock
        { connections := peers 0, draw := draws 0 } id = none :=
      connectionForBlock_eq_none.2 fun a ha => by
        obtain ⟨c, hc, rfl⟩ := List.mem_map.1 ha
        exact hnone c hc
    show (fetchChunk checksum hashes id buff
      [{ connections := peers 0, draw := draws 0 }]).1 = _
    rw [fetchChunk, hchoice]

/-- A connection that advertises chunk 0 and always breaks off. -/
def breaksOff : Nat → List Peer := fun _ =>
  [{ availability := { chunks := {0} }
     answer := { parts := [[9]], ok := false } }]

/-- A call for chunk 1 ends, and one for chunk 0 does not. -/
theorem ends_breaksOff :
    Ends (fun b => b) [[1, 2]] 1 (fun _ => 0) breaksOff (fun k => k)
      ∧ ¬ Ends (fun b => b) [[1, 2]] 0 (fun _ => 0) breaksOff fun k => k := by
  have hbad : ∀ id k, ∀ c ∈ breaksOff k, c.availability.contains id = true →
      Bad (fun b => b) [[1, 2]] id c.answer := by
    intro id k c hc _
    rw [List.mem_singleton.1 hc]
    exact .inl rfl
  have hiff := fun id => ends_iff (fun b => b) [[1, 2]] id (fun _ => 0)
    breaksOff (fun k => k) (fun _ => rfl) (hbad id)
  refine ⟨(hiff 1).2 fun c hc => ?_, fun hends => ?_⟩
  · rw [List.mem_singleton.1 hc]
    decide
  · exact absurd ((hiff 0).1 hends _ (List.mem_singleton_self _)) (by decide)

/-- The connection is asked for ever. -/
theorem asks_for_ever :
    (∀ n, fetchChunk (fun b => b) [[1, 2]] 0 (fun _ => 0)
        (rounds breaksOff (fun k => k) n) = (.running, []))
      ∧ ¬ Ends (fun b => b) [[1, 2]] 0 (fun _ => 0) breaksOff fun k => k := by
  have hanswer : ∀ n, ∀ r ∈ rounds breaksOff (fun k => k) n,
      ∃ st, connectionForBlock r 0 = some st
        ∧ Bad (fun b => b) [[1, 2]] 0 st ∧ InRange [[1, 2]] 0 st := by
    intro n r hr
    obtain ⟨k, -, rfl⟩ := List.mem_map.1 hr
    refine ⟨{ parts := [[9]], ok := false }, ?_, .inl rfl, ?_⟩
    · simp [connectionForBlock, breaksOff, ChunkAvailability.contains,
        Nat.mod_one]
    · exact ⟨by decide, fun h => by cases h⟩
  have hruns := fun n =>
    running_of_bad (rounds breaksOff (fun k => k) n) (fun _ => 0) (hanswer n)
  refine ⟨hruns, ?_⟩
  rintro ⟨n, code, -, hret⟩
  rw [hruns n] at hret
  cases hret

end ConnectionPool

end Distfs

/-
`ChunkBuilder::add_file` down to its variables, and every pattern of
results that `read` can give it.

# The variables

`read` answers a byte count or -1 in a `ssize_t`, and the inner loop
takes either from `max_size`, a `uint32_t`, and adds it to `*length`, a
`usize`. `readRound` is that loop, `rounds` is `add_file` as the rounds
it makes: what a round read, and the count it passes to `write_data`.
`rounds_snd`: this is the `add_file` of `ChunkBuilder`.

# The count

`readRound_eq` compares a round with the read loop of a C program. A
call that fails counts as minus one byte: `write_data` is passed one byte
less than was read, and `2 ^ 32 - 1` bytes if nothing was.
`addFile_handles_iff`: a read that fails is exactly what breaks
`add_file`.
-/
import Distfs.Data.BuilderRefinement
import Mathlib.Algebra.Group.Int.Defs

namespace Distfs

open Transfer

namespace ChunkBuilder

-- ================================================ the inner loop

/-- A number converted to `uint32_t`. -/
def toUint32 (n : Int) : Nat := (n % 2 ^ 32).toNat

/-- A number converted to `usize`. -/
def toUsize (n : Int) : Nat := (n % 2 ^ 64).toNat

/-- The variables of `add_file` behind its inner loop; `got` is what the
calls of `read` put into `read_buffer`. -/
structure RoundEnd where
  res : Int
  maxSize : Nat
  length : Nat
  got : Bytes
  fd : Fd

/-- The inner loop of `add_file`. -/
def readRound (fd : Fd) (maxSize length : Nat) (got : Bytes) : RoundEnd :=
  match _hread : fd.read maxSize with
  | (none, fd') =>
      { res := -1
        maxSize := toUint32 (maxSize - (-1))
        length := toUsize (length + (-1))
        got := got
        fd := fd' }
  | (some bs, fd') =>
      let maxSize := toUint32 (maxSize - bs.length)
      let length := toUsize (length + bs.length)
      if _h : 0 < maxSize ∧ 0 < bs.length then
        readRound fd' maxSize length (got ++ bs)
      else
        { res := bs.length
          maxSize := maxSize
          length := length
          got := got ++ bs
          fd := fd' }
termination_by fd.rest.length
decreasing_by
  have hrest := Fd.read_rest _hread
  omega

/-- What a round counts: the bytes it read, less one if its last call
failed. -/
def counted (r : ReadEnd) : Int :=
  if r.failed then (r.got.length : Int) - 1 else r.got.length

theorem counted_append (bs : Bytes) (r : ReadEnd) :
    counted { r with got := bs ++ r.got } = bs.length + counted r := by
  unfold counted
  simp only [List.length_append]
  split <;> omega

/-- Additions to `*length` one by one, or at once. -/
theorem toUsize_add (length : Nat) (a c : Int) :
    toUsize ((toUsize (length + a) : Nat) + c)
      = toUsize (length + (a + c)) := by
  unfold toUsize
  omega

/-- A round is the read loop of a C program, apart from what it
counts. -/
theorem readRound_eq (fd : Fd) (n : Nat) (hn : n < 2 ^ 32) :
    ∀ (length : Nat) (got : Bytes),
      let v := readRound fd n length got
      let r := readLoop fd n
      v.maxSize = toUint32 (n - counted r)
        ∧ v.length = toUsize (length + counted r)
        ∧ v.got = got ++ r.got ∧ v.fd = r.fd
        ∧ (v.res = -1 ↔ r.failed = true)
        ∧ (0 < v.res ↔ r.failed = false ∧ r.atEnd = false) := by
  induction n using Nat.strong_induction_on generalizing fd with
  | _ n ih =>
      intro length got
      simp only
      rw [readRound, readLoop]
      split
      · next fd' hread =>
        rw [hread]
        exact ⟨rfl, rfl, (List.append_nil got).symm, rfl, by simp, by simp⟩
      · next bs fd' hread =>
        have hle := Fd.length_read_le hread
        have hleft : toUint32 ((n : Int) - bs.length) = n - bs.length := by
          unfold toUint32
          omega
        rw [hread]
        simp only [hleft]
        split
        · next hgo =>
          obtain ⟨hmax, hlen, hgot, hfd, hfail, hend⟩ := ih (n - bs.length)
            (by omega) fd' (by omega) _ (got ++ bs)
          refine ⟨?_, ?_, ?_, hfd, hfail, hend⟩
          · rw [hmax, counted_append]
            congr 1
            omega
          · rw [hlen, counted_append, toUsize_add]
          · rw [hgot, List.append_assoc]
        · next hstop =>
          refine ⟨hleft.symm, rfl, rfl, rfl, ?_, ?_⟩
          · show ((bs.length : Int) = -1 ↔ false = true)
            constructor
            · omega
            · exact fun h => by cases h
          · show (0 < (bs.length : Int) ↔ false = false ∧ bs.isEmpty = false)
            rw [List.isEmpty_eq_false_iff, ← List.length_pos_iff]
            constructor
            · exact fun h => ⟨rfl, by omega⟩
            · exact fun h => by omega

-- ==================================================== the outer loop

/-- A round of `add_file`: what its calls of `read` put into
`read_buffer`, whether the last of them failed, and the count that
`write_data` is called with. -/
structure Round where
  got : Bytes
  failed : Bool
  passed : Nat
  deriving DecidableEq

section Rounds

variable {σ : Type} (ops : ChunkOps σ)

/-- The loop of `add_file` with the rounds it makes. A call of
`write_data` with a count behind what was read has no defined meaning. -/
def rounds (b : ChunkBuilder σ) (fd : Fd) (length : Nat) :
    List Round × Option (ErrorCode × Nat × ChunkBuilder σ) :=
  let v := readRound fd chunkSizeBytes length []
  let round : Round :=
    { got := v.got
      failed := decide (v.res = -1)
      passed := toUint32 (chunkSizeBytes - v.maxSize) }
  if v.got.length < round.passed then ([round], none)
  else
    match writeData ops b (v.got.take round.passed) with
    | none => ([round], none)
    | some (err, b') =>
        if err ≠ .ok then ([round], some (err, v.length, b'))
        else if _h : 0 < v.res then
          let next := rounds b' v.fd v.length
          (round :: next.1, next.2)
        else if v.res = -1 then ([round], some (.accessDenied, v.length, b'))
        else ([round], some (.ok, v.length, b'))
termination_by fd.rest.length
decreasing_by
  obtain ⟨-, -, -, hfd, -, hmore⟩ := readRound_eq fd chunkSizeBytes
    (by rw [chunkSizeBytes_eq]; omega) length []
  obtain ⟨hrest, hgot⟩ := readLoop_rest fd chunkSizeBytes
  obtain ⟨hfailed, hatEnd⟩ := hmore.1 ‹_›
  have hread := hgot hfailed hatEnd
  have hless : (readRound fd chunkSizeBytes length []).fd.rest.length
      < fd.rest.length := by
    rw [hfd]
    omega
  exact hless

/-- The round that a read loop amounts to. -/
def roundOf (r : ReadEnd) : Round :=
  { got := r.got, failed := r.failed, passed := toUint32 (counted r) }

/-- `rounds` in terms of the read loop of a C program. -/
theorem rounds_eq (b : ChunkBuilder σ) (fd : Fd) (length : Nat) :
    rounds ops b fd length =
      let r := readLoop fd chunkSizeBytes
      let total := toUsize (length + counted r)
      if r.got.length < toUint32 (counted r) then ([roundOf r], none)
      else
        match writeData ops b (r.got.take (toUint32 (counted r))) with
        | none => ([roundOf r], none)
        | some (err, b') =>
            if err ≠ .ok then ([roundOf r], some (err, total, b'))
            else if r.failed = true then
              ([roundOf r], some (.accessDenied, total, b'))
            else if r.atEnd = true then ([roundOf r], some (.ok, total, b'))
            else
              (roundOf r :: (rounds ops b' r.fd total).1,
                (rounds ops b' r.fd total).2) := by
  obtain ⟨hmax, hlength, hgot, hfd, hfailed, hmore⟩ := readRound_eq fd
    chunkSizeBytes (by rw [chunkSizeBytes_eq]; omega) length []
  have hbuffer := chunkSizeBytes_eq
  rw [rounds]
  generalize readRound fd chunkSizeBytes length [] = v at *
  generalize readLoop fd chunkSizeBytes = r at *
  rw [List.nil_append] at hgot
  have hcall : decide (v.res = -1) = r.failed := by
    rw [Bool.eq_iff_iff, decide_eq_true_iff]
    exact hfailed
  have hpassed : toUint32 (chunkSizeBytes - v.maxSize)
      = toUint32 (counted r) := by
    rw [hmax]
    unfold toUint32
    omega
  simp only [roundOf, hgot, hfd, hlength, hcall, hpassed]
  by_cases hover : r.got.length < toUint32 (counted r)
  · rw [if_pos hover, if_pos hover]
  rw [if_neg hover, if_neg hover]
  cases writeData ops b (r.got.take (toUint32 (counted r))) with
  | none => rfl
  | some x =>
      obtain ⟨err, b'⟩ := x
      simp only
      by_cases herr : err ≠ .ok
      · rw [if_pos herr, if_pos herr]
      rw [if_neg herr, if_neg herr]
      by_cases hfail : r.failed = true
      · have hstop : ¬ 0 < v.res := by
          rw [hfailed.2 hfail]
          omega
        rw [dif_neg hstop, if_pos (hfailed.2 hfail), if_pos hfail]
      rw [if_neg hfail]
      by_cases hend : r.atEnd = true
      · have hstop : ¬ 0 < v.res := fun hpos => by
          have := (hmore.1 hpos).2
          rw [hend] at this
          cases this
        rw [dif_neg hstop, if_neg (fun hres => hfail (hfailed.1 hres)),
          if_pos hend]
      · rw [dif_pos (hmore.2 ⟨by simpa using hfail, by simpa using hend⟩),
          if_neg hend]

end Rounds

-- ======================================= the count for `write_data`

/-- What a round passes: what it read, if its reads succeeded. -/
theorem passed_of_read {r : ReadEnd} (h : r.failed = false)
    (hlen : r.got.length < 2 ^ 32) : toUint32 (counted r) = r.got.length := by
  unfold toUint32 counted
  rw [h]
  simp only [Bool.false_eq_true, if_false]
  omega

/-- One byte less than it read, if a read failed. -/
theorem passed_of_failed {r : ReadEnd} (h : r.failed = true)
    (hgot : r.got ≠ []) (hlen : r.got.length < 2 ^ 32) :
    toUint32 (counted r) = r.got.length - 1 := by
  have hpos := List.length_pos_iff.2 hgot
  unfold toUint32 counted
  rw [if_pos h]
  omega

/-- And the most a `uint32_t` holds, if it failed with nothing read. -/
theorem passed_of_failed_nil {r : ReadEnd} (h : r.failed = true)
    (hgot : r.got = []) : toUint32 (counted r) = 2 ^ 32 - 1 := by
  unfold toUint32 counted
  rw [if_pos h, hgot]
  rfl

section Rounds

variable {σ : Type} {ops : ChunkOps σ}

/-- The loop of `add_file`. -/
theorem rounds_snd (fd : Fd) : ∀ (b : ChunkBuilder σ) (length : Nat),
    (rounds ops b fd length).2 = fileLoop ops b fd length := by
  induction hlen : fd.rest.length using Nat.strong_induction_on
    generalizing fd with
  | _ n ih =>
      intro b length
      obtain ⟨hrest, hgot⟩ := readLoop_rest fd chunkSizeBytes
      have hbuffer := chunkSizeBytes_eq
      have hroom := (readLoop_length chunkSizeBytes fd).1
      rw [rounds_eq, fileLoop]
      generalize readLoop fd chunkSizeBytes = r at *
      simp only
      by_cases hfailed : r.failed = true
      · rw [dif_pos hfailed]
        by_cases hnil : r.got = []
        · rw [passed_of_failed_nil hfailed hnil, if_pos (by omega),
            if_pos hnil]
        · have hpos := List.length_pos_iff.2 hnil
          have htotal : toUsize (length + counted r)
              = usize (length + r.got.length + (2 ^ 64 - 1)) := by
            unfold toUsize usize counted
            rw [if_pos hfailed]
            omega
          rw [passed_of_failed hfailed hnil (by omega), if_neg (by omega),
            if_neg hnil, htotal, ← List.dropLast_eq_take]
          cases writeData ops b r.got.dropLast with
          | none => rfl
          | some x =>
              obtain ⟨err, b'⟩ := x
              simp only
              by_cases herr : err ≠ .ok
              · rw [if_pos herr, if_pos herr]
              · rw [if_neg herr, if_neg herr, if_pos hfailed]
      · have hfalse : r.failed = false := by simpa using hfailed
        have htotal : toUsize (length + counted r)
            = usize (length + r.got.length) := by
          unfold toUsize usize counted
          rw [if_neg hfailed]
          omega
        rw [dif_neg hfailed, passed_of_read hfalse (by omega),
          if_neg (by omega), htotal, List.take_length]
        cases writeData ops b r.got with
        | none => rfl
        | some x =>
            obtain ⟨err, b'⟩ := x
            simp only
            by_cases herr : err ≠ .ok
            · rw [if_pos herr, if_pos herr]
            rw [if_neg herr, if_neg herr, if_neg hfailed]
            by_cases hend : r.atEnd = true
            · rw [if_pos hend, dif_pos hend]
            · have hmore := hgot hfalse (by simpa using hend)
              rw [if_neg hend, dif_neg hend]
              exact ih r.fd.rest.length (by omega) r.fd rfl b' _

/-- The first round is always made. -/
theorem rounds_head (b : ChunkBuilder σ) (fd : Fd) (length : Nat) :
    roundOf (readLoop fd chunkSizeBytes) ∈ (rounds ops b fd length).1 := by
  rw [rounds_eq]
  simp only
  split
  · exact List.mem_singleton_self _
  split
  · exact List.mem_singleton_self _
  split
  · exact List.mem_singleton_self _
  split
  · exact List.mem_singleton_self _
  split
  · exact List.mem_singleton_self _
  · exact List.mem_cons_self

/-- A round with a read that fails is the last one. -/
theorem rounds_of_failed {b : ChunkBuilder σ} {fd : Fd} {length : Nat}
    (h : (readLoop fd chunkSizeBytes).failed = true) :
    (rounds ops b fd length).1 = [roundOf (readLoop fd chunkSizeBytes)] := by
  rw [rounds_eq]
  simp only [h, if_true]
  split
  · rfl
  split
  · rfl
  split
  · rfl
  · rfl

/-- What a loop does that ends with OK after reads that succeed: it writes
what the first round read, and is then at its end or goes on. -/
theorem rounds_ok {b b' : ChunkBuilder σ} {fd : Fd} {length length' : Nat}
    (hread : ∀ q ∈ (rounds ops b fd length).1, q.failed = false)
    (hloop : (rounds ops b fd length).2 = some (.ok, length', b')) :
    let r := readLoop fd chunkSizeBytes
    let total := usize (length + r.got.length)
    ∃ b₁, writeData ops b r.got = some (.ok, b₁)
      ∧ (((rounds ops b fd length).1 = [roundOf r] ∧ b' = b₁
          ∧ length' = total)
        ∨ ((rounds ops b fd length).1
            = roundOf r :: (rounds ops b₁ r.fd total).1
          ∧ (rounds ops b₁ r.fd total).2 = some (.ok, length', b')
          ∧ r.fd.rest.length < fd.rest.length)) := by
  have hfailed : (readLoop fd chunkSizeBytes).failed = false :=
    hread _ (rounds_head b fd length)
  obtain ⟨hrest, hgot⟩ := readLoop_rest fd chunkSizeBytes
  have hbuffer := chunkSizeBytes_eq
  have hroom := (readLoop_length chunkSizeBytes fd).1
  rw [rounds_eq] at hloop ⊢
  generalize readLoop fd chunkSizeBytes = r at *
  have htotal : toUsize (length + counted r)
      = usize (length + r.got.length) := by
    unfold toUsize usize counted
    rw [hfailed]
    simp only [Bool.false_eq_true, if_false]
    omega
  simp only [passed_of_read hfailed (by omega), htotal, List.take_length,
    lt_irrefl, if_false, hfailed, Bool.false_eq_true] at hloop ⊢
  cases hwrite : writeData ops b r.got with
  | none => rw [hwrite] at hloop; cases hloop
  | some x =>
      obtain ⟨err, b₁⟩ := x
      rw [hwrite] at hloop
      simp only at hloop ⊢
      by_cases herr : err ≠ .ok
      · rw [if_pos herr] at hloop
        cases hloop
        exact absurd rfl herr
      rw [if_neg herr] at hloop ⊢
      rw [not_not.1 herr]
      refine ⟨b₁, rfl, ?_⟩
      by_cases hend : r.atEnd = true
      · rw [if_pos hend] at hloop ⊢
        cases hloop
        exact .inl ⟨rfl, rfl, rfl⟩
      · have hmore := hgot hfailed (by simpa using hend)
        rw [if_neg hend] at hloop ⊢
        exact .inr ⟨rfl, hloop, by omega⟩

/-- Every round is a read loop with room for a chunk. -/
theorem mem_rounds (fd : Fd) : ∀ (b : ChunkBuilder σ) (length : Nat),
    ∀ q ∈ (rounds ops b fd length).1,
      ∃ fd', q = roundOf (readLoop fd' chunkSizeBytes) := by
  induction hlen : fd.rest.length using Nat.strong_induction_on
    generalizing fd with
  | _ n ih =>
      intro b length q hq
      obtain ⟨hrest, hgot⟩ := readLoop_rest fd chunkSizeBytes
      rw [rounds_eq] at hq
      have hfirst : ∀ q ∈ [roundOf (readLoop fd chunkSizeBytes)],
          ∃ fd', q = roundOf (readLoop fd' chunkSizeBytes) := fun q hq =>
        ⟨fd, List.mem_singleton.1 hq⟩
      generalize readLoop fd chunkSizeBytes = r at hq hrest hgot hfirst
      simp only at hq
      split at hq
      · exact hfirst q hq
      split at hq
      · exact hfirst q hq
      next err b' _ =>
      split at hq
      · exact hfirst q hq
      split at hq
      · exact hfirst q hq
      next hfailed =>
      split at hq
      · exact hfirst q hq
      next hend =>
      have hmore := hgot (by simpa using hfailed) (by simpa using hend)
      rcases List.mem_cons.1 hq with rfl | hq
      · exact hfirst _ (List.mem_singleton.2 rfl)
      · exact ih r.fd.rest.length (by omega) r.fd rfl b' _ q hq

/-- A round passes what it read if and only if no read of it failed. -/
theorem passed_eq_iff {b : ChunkBuilder σ} {fd : Fd} {length : Nat}
    {q : Round} (hq : q ∈ (rounds ops b fd length).1) :
    q.got.length ≤ chunkSizeBytes
      ∧ (q.passed = q.got.length ↔ q.failed = false) := by
  obtain ⟨fd', rfl⟩ := mem_rounds fd b length q hq
  obtain ⟨hlen, hless⟩ := readLoop_length chunkSizeBytes fd'
  have hbuffer := chunkSizeBytes_eq
  refine ⟨hlen, ?_⟩
  generalize readLoop fd' chunkSizeBytes = r at hlen hless
  show toUint32 (counted r) = r.got.length ↔ r.failed = false
  cases hfailed : r.failed with
  | false => exact ⟨fun _ => rfl, fun _ => passed_of_read hfailed (by omega)⟩
  | true =>
      refine ⟨fun hpassed => ?_, fun h => by cases h⟩
      by_cases hnil : r.got = []
      · rw [passed_of_failed_nil hfailed hnil, hnil] at hpassed
        cases hpassed
      · have hpos := List.length_pos_iff.2 hnil
        rw [passed_of_failed hfailed hnil (by omega)] at hpassed
        omega

end Rounds

-- ======================================================= every pattern

/-- The bytes that the rounds read, one after the other. -/
def bytesRead (qs : List Round) : Bytes := qs.flatMap Round.got

section Receives

variable {σ : Type} {ops : ChunkOps σ} {ready : σ → Prop}
  {view : σ → UInt32 → Option Bytes} {top : Nat}

/-- What the rounds read is written at the cursor, if no read fails and
the loop ends with OK. -/
theorem Refines.read_rounds (htop : top ≤ 2 ^ 32 * chunkSizeBytes)
    (hf : ops.Truthful ready view fun id => id.toNat ≤ top / chunkSizeBytes)
    (fd : Fd) :
    ∀ (b b' : ChunkBuilder σ) (f : FlatFile) (length length' : Nat),
      Refines ready view top b f →
      (∀ q ∈ (rounds ops b fd length).1, q.failed = false) →
      f.cursor + (bytesRead (rounds ops b fd length).1).length ≤ top →
      length + (bytesRead (rounds ops b fd length).1).length < 2 ^ 64 →
      (rounds ops b fd length).2 = some (.ok, length', b') →
      length' = length + (bytesRead (rounds ops b fd length).1).length
        ∧ Refines ready view top b'
          (f.put (bytesRead (rounds ops b fd length).1)) := by
  induction hlen : fd.rest.length using Nat.strong_induction_on
    generalizing fd with
  | _ n ih =>
      intro b b' f length length' h hread hle hsize hloop
      obtain ⟨b₁, hwrite, hcase⟩ := rounds_ok hread hloop
      rcases hcase with ⟨hqs, rfl, rfl⟩ | ⟨hqs, hloop', hless⟩
      · have hbytes : bytesRead (rounds ops b fd length).1
            = (readLoop fd chunkSizeBytes).got := by
          rw [hqs]
          exact List.append_nil _
        rw [hbytes] at hle hsize ⊢
        exact ⟨usize_of_lt hsize,
          h.writeData_keeps htop hf _ _ _ _ hle hwrite⟩
      · have hbytes : bytesRead (rounds ops b fd length).1
            = (readLoop fd chunkSizeBytes).got
              ++ bytesRead (rounds ops b₁ (readLoop fd chunkSizeBytes).fd
                (usize (length
                  + (readLoop fd chunkSizeBytes).got.length))).1 := by
          rw [hqs]
          rfl
        have hread' := fun q hq => hread q (by
          rw [hqs]
          exact List.mem_cons_of_mem _ hq)
        rw [hbytes, List.length_append] at hle hsize
        rw [hbytes, List.length_append, FlatFile.put_append]
        generalize readLoop fd chunkSizeBytes = r at *
        rw [usize_of_lt (by omega)] at *
        have hput := h.writeData_keeps htop hf _ _ _ _ (by omega) hwrite
        obtain ⟨hlength, hrefines⟩ := ih r.fd.rest.length (by omega) r.fd rfl
          b₁ b' _ (length + r.got.length) length' hput hread'
          (by rw [FlatFile.cursor_put]; omega) (by omega) hloop'
        exact ⟨by omega, hrefines⟩

end Receives

section Handles

variable {σ : Type} (ops : ChunkOps σ)

/-- The rounds that `add_file` makes. -/
def addFileRounds (b : ChunkBuilder σ) : SourceFile → List Round
  | .notFound => []
  | .denied => []
  | .opened fd => (rounds ops b fd 0).1

/-- `add_file` handles what `open` and `read` answer: `write_data` is
called with what each round read; OK means that the range it reports has
received what was read, whatever truthful store is behind it; and a read
that fails is answered by an error, with nothing passed that was not
read. -/
structure Handles (b : ChunkBuilder σ) (source : SourceFile) : Prop where
  passes : ∀ q ∈ addFileRounds ops b source,
    q.passed ≤ chunkSizeBytes ∧ q.passed = q.got.length
  receives : ∀ ready view top f, top ≤ 2 ^ 32 * chunkSizeBytes →
    (ops.Truthful ready view fun id => id.toNat ≤ top / chunkSizeBytes) →
    Refines ready view top b f →
    f.cursor + (bytesRead (addFileRounds ops b source)).length ≤ top →
    ∀ reply b', addFile ops b source = some (reply, b') → reply.err = .ok →
      reply.offset = f.cursor
        ∧ reply.length = (bytesRead (addFileRounds ops b source)).length
        ∧ Refines ready view top b'
          (f.put (bytesRead (addFileRounds ops b source)))
  fails : (∃ q ∈ addFileRounds ops b source, q.failed = true) →
    (∃ reply b', addFile ops b source = some (reply, b') ∧ reply.err ≠ .ok)
      ∧ ∀ q ∈ addFileRounds ops b source, q.passed ≤ q.got.length

variable {ops}

theorem addFileRounds_passed {b : ChunkBuilder σ} {source : SourceFile}
    {q : Round} (hq : q ∈ addFileRounds ops b source) :
    q.got.length ≤ chunkSizeBytes
      ∧ (q.passed = q.got.length ↔ q.failed = false) := by
  cases source with
  | notFound | denied => exact absurd hq List.not_mem_nil
  | opened fd => exact passed_eq_iff hq

/-- `add_file` is its rounds. -/
theorem addFile_opened (b : ChunkBuilder σ) (fd : Fd) :
    addFile ops b (.opened fd) = (rounds ops b fd 0).2.map fun x =>
      ({ err := x.1
         offset := if x.1 = .ok then b.pos else 0
         length := x.2.1 }, x.2.2) := by
  rw [rounds_snd]
  unfold addFile
  simp only
  cases fileLoop ops b fd 0 with
  | none => rfl
  | some x => rfl

/-- Where no read fails, OK says what has been received. -/
theorem addFile_receives {ready : σ → Prop}
    {view : σ → UInt32 → Option Bytes} {top : Nat} {f : FlatFile}
    (htop : top ≤ 2 ^ 32 * chunkSizeBytes)
    (hf : ops.Truthful ready view fun id => id.toNat ≤ top / chunkSizeBytes)
    {b b' : ChunkBuilder σ} (h : Refines ready view top b f)
    {source : SourceFile}
    (hread : ∀ q ∈ addFileRounds ops b source, q.failed = false)
    (hle : f.cursor + (bytesRead (addFileRounds ops b source)).length ≤ top)
    {reply : Reply} (hadd : addFile ops b source = some (reply, b'))
    (hok : reply.err = .ok) :
    reply.offset = f.cursor
      ∧ reply.length = (bytesRead (addFileRounds ops b source)).length
      ∧ Refines ready view top b'
        (f.put (bytesRead (addFileRounds ops b source))) := by
  cases source with
  | notFound | denied =>
      cases hadd
      cases hok
  | opened fd =>
      have hbuffer := chunkSizeBytes_eq
      rw [addFile_opened, Option.map_eq_some_iff] at hadd
      obtain ⟨⟨err, length, t⟩, hloop, hreply⟩ := hadd
      cases hreply
      have herr : err = .ok := hok
      subst herr
      have hle' : f.cursor + (bytesRead (rounds ops b fd 0).1).length ≤ top :=
        hle
      obtain ⟨hlength, hrefines⟩ := h.read_rounds htop hf fd b _ f 0 length
        hread hle' (by omega) hloop
      exact ⟨h.pos, hlength.trans (Nat.zero_add _), hrefines⟩

variable (ops)

/-- `add_file` handles the answers of `read` if and only if none of its
calls of `read` fails. -/
theorem addFile_handles_iff (b : ChunkBuilder σ) (source : SourceFile) :
    Handles ops b source
      ↔ ∀ q ∈ addFileRounds ops b source, q.failed = false := by
  constructor
  · intro h q hq
    exact (addFileRounds_passed hq).2.1 (h.passes q hq).2
  · intro hread
    have hpassed : ∀ q ∈ addFileRounds ops b source,
        q.passed = q.got.length := fun q hq =>
      (addFileRounds_passed hq).2.2 (hread q hq)
    refine ⟨fun q hq => ⟨?_, hpassed q hq⟩, ?_, ?_⟩
    · rw [hpassed q hq]
      exact (addFileRounds_passed hq).1
    · intro ready view top f htop hf h hle reply b' hadd hok
      exact addFile_receives htop hf h hread hle hadd hok
    · rintro ⟨q, hq, hfailed⟩
      rw [hread q hq] at hfailed
      cases hfailed

end Handles

/-- A file of three bytes; the second call of `read` fails. -/
def failsBehindTwo : SourceFile :=
  .opened { rest := [1, 2, 3], script := [.upTo 2, .fail] }

/-- A file of which nothing can be read. -/
def unreadable : SourceFile :=
  .opened { rest := [1], script := [.fail] }

/-- What `add_file` passes for the two files: one byte of the two it read,
and `2 ^ 32 - 1` bytes where it read none. -/
theorem addFile_counts_failure :
    addFileRounds MemoryStore.ops (new .empty fun _ => 0) failsBehindTwo
        = [{ got := [1, 2], failed := true, passed := 1 }]
      ∧ addFileRounds MemoryStore.ops (new .empty fun _ => 0) unreadable
        = [{ got := [], failed := true, passed := 2 ^ 32 - 1 }]
      ∧ addFile MemoryStore.ops (new .empty fun _ => 0) unreadable = none
      ∧ ¬ Handles MemoryStore.ops (new .empty fun _ => 0) unreadable := by
  have hnone : readLoop { rest := [1], script := [.fail] } chunkSizeBytes
      = { failed := true, atEnd := false, got := []
          fd := { rest := [1], script := [] } } := by
    rw [readLoop]
    rfl
  have htwo : readLoop { rest := [1, 2, 3], script := [.upTo 2, .fail] }
        chunkSizeBytes
      = { failed := true, atEnd := false, got := [1, 2]
          fd := { rest := [3], script := [] } } := by
    have hfirst : Fd.read { rest := [1, 2, 3], script := [.upTo 2, .fail] }
        4194304 = (some [1, 2], { rest := [3], script := [.fail] }) := rfl
    have hsecond : readLoop { rest := [3], script := [.fail] } 4194302
        = { failed := true, atEnd := false, got := []
            fd := { rest := [3], script := [] } } := by
      rw [readLoop]
      rfl
    rw [chunkSizeBytes_eq, readLoop, hfirst]
    simp only [List.length_cons, List.length_nil]
    rw [dif_pos (by omega), hsecond]
    rfl
  have hrounds : addFileRounds MemoryStore.ops (new .empty fun _ => 0)
      unreadable = [{ got := [], failed := true, passed := 2 ^ 32 - 1 }] := by
    show (rounds _ _ _ 0).1 = _
    rw [rounds_of_failed (by rw [hnone]), hnone]
    rfl
  refine ⟨?_, hrounds, ?_, fun h => ?_⟩
  · show (rounds _ _ _ 0).1 = _
    rw [rounds_of_failed (by rw [htwo]), htwo]
    rfl
  · unfold unreadable
    rw [addFile_opened, rounds_eq, hnone]
    rfl
  · have hpassed := (h.passes _ (by
      rw [hrounds]
      exact List.mem_singleton_self _)).2
    cases hpassed

end ChunkBuilder

end Distfs

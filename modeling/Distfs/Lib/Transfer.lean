/-
The `read(2)` and `write(2)` loops of a C program, over scripted calls.

A script says what the kernel does with the next calls: transfer at
most so many bytes, or fail. Past the end of the script every call
transfers all it is asked for. A transfer of zero bytes with bytes left
models the end of a file that was cut short (reads), or a device that
takes nothing (writes).

Both loops are `do { res = call(fd, p, n); n -= res; p += res; }
while (n > 0 && res > 0);`. `readLoop_of_progress` and
`writeLoop_of_progress` say what they amount to when no call fails and
none transfers nothing: the whole of what fits, however the kernel cuts
it up.
-/
import Mathlib.Data.List.Basic
import Mathlib.Algebra.Order.Group.Nat

namespace Transfer

/-- What the kernel does with one call. -/
inductive Call where
  | upTo (k : Nat)
  | fail
  deriving DecidableEq, Repr

/-- The call neither fails nor transfers nothing. -/
def Call.Progress : Call → Prop
  | .upTo k => 0 < k
  | .fail => False

instance (c : Call) : Decidable c.Progress :=
  match c with
  | .upTo k => inferInstanceAs (Decidable (0 < k))
  | .fail => inferInstanceAs (Decidable False)

/-- An open file: the bytes not read yet, and the calls to come. -/
structure Fd where
  rest : List UInt8
  script : List Call

/-- The byte count a call for `n` bytes answers, `none` for `-1`. -/
def answer (script : List Call) (n : Nat) : Option Nat × List Call :=
  match script with
  | [] => (some n, [])
  | .upTo k :: script => (some (min k n), script)
  | .fail :: script => (none, script)

/-- A call transfers no more than it is asked for. -/
theorem answer_le {script script' : List Call} {n k : Nat}
    (h : answer script n = (some k, script')) : k ≤ n := by
  unfold answer at h
  split at h
  · cases h
    exact Nat.le_refl n
  · cases h
    exact Nat.min_le_right _ n
  · cases h

theorem answer_of_progress {script : List Call} {n : Nat}
    (h : ∀ c ∈ script, c.Progress) (hn : 0 < n) :
    ∃ k script', answer script n = (some k, script') ∧ 0 < k ∧ k ≤ n
      ∧ ∀ c ∈ script', c.Progress := by
  cases script with
  | nil => exact ⟨n, [], rfl, hn, Nat.le_refl _, h⟩
  | cons c script =>
      have hrest : ∀ c ∈ script, c.Progress := fun c hc =>
        h c (List.mem_cons_of_mem _ hc)
      cases c with
      | upTo k =>
          have hk : 0 < k := h _ List.mem_cons_self
          exact ⟨min k n, script, rfl, by omega, by omega, hrest⟩
      | fail => exact (h _ List.mem_cons_self).elim

-- ========================================================= reading

/-- `read(fd, p, n)`: the bytes read, `none` for `-1`. -/
def Fd.read (fd : Fd) (n : Nat) : Option (List UInt8) × Fd :=
  match answer fd.script n with
  | (none, script) => (none, { fd with script := script })
  | (some k, script) =>
      (some (fd.rest.take k), { rest := fd.rest.drop k, script := script })

/-- How a read loop ends: whether its last call failed, whether that
call read nothing, and the bytes of the calls before. -/
structure ReadEnd where
  failed : Bool
  atEnd : Bool
  got : List UInt8
  fd : Fd

/-- The read loop with room for `n` bytes. -/
def readLoop (fd : Fd) (n : Nat) : ReadEnd :=
  match fd.read n with
  | (none, fd') =>
      { failed := true, atEnd := false, got := [], fd := fd' }
  | (some bs, fd') =>
      if _h : 0 < n - bs.length ∧ 0 < bs.length then
        let r := readLoop fd' (n - bs.length)
        { r with got := bs ++ r.got }
      else
        { failed := false, atEnd := bs.isEmpty, got := bs, fd := fd' }
termination_by n
decreasing_by omega

theorem Fd.read_rest {fd fd' : Fd} {n : Nat} {bs : List UInt8}
    (h : fd.read n = (some bs, fd')) :
    bs.length + fd'.rest.length = fd.rest.length := by
  unfold Fd.read at h
  split at h
  · cases h
  · cases h
    rw [List.length_take, List.length_drop]
    omega

/-- A call reads no more than it is asked for. -/
theorem Fd.length_read_le {fd fd' : Fd} {n : Nat} {bs : List UInt8}
    (h : fd.read n = (some bs, fd')) : bs.length ≤ n := by
  unfold Fd.read at h
  split at h
  · cases h
  · next hans =>
    have hle := answer_le hans
    cases h
    rw [List.length_take]
    omega

/-- What the loop reads is gone from the file, and a loop that was not
stopped by the end of the file or a failure has read something. -/
theorem readLoop_rest (fd : Fd) (n : Nat) :
    (readLoop fd n).got.length + (readLoop fd n).fd.rest.length
        = fd.rest.length
      ∧ ((readLoop fd n).failed = false → (readLoop fd n).atEnd = false →
        0 < (readLoop fd n).got.length) := by
  induction n using Nat.strong_induction_on generalizing fd with
  | _ n ih =>
      rw [readLoop]
      split
      · next fd' h =>
        refine ⟨?_, fun hfailed => by cases hfailed⟩
        unfold Fd.read at h
        split at h
        · cases h
          exact Nat.zero_add _
        · cases h
      · next bs fd' h =>
        have hrest := Fd.read_rest h
        split
        · next hgo =>
          have hih := (ih (n - bs.length) (by omega) fd').1
          simp only [List.length_append]
          refine ⟨by omega, fun _ _ => by omega⟩
        · refine ⟨hrest, fun _ hend => ?_⟩
          rw [List.isEmpty_eq_false_iff] at hend
          exact List.length_pos_iff.2 hend

/-- The loop stays within its room, and has some left when a call
fails. -/
theorem readLoop_length (n : Nat) : ∀ fd : Fd,
    (readLoop fd n).got.length ≤ n
      ∧ (0 < n → (readLoop fd n).failed = true →
        (readLoop fd n).got.length < n) := by
  induction n using Nat.strong_induction_on with
  | _ n ih =>
      intro fd
      rw [readLoop]
      split
      · exact ⟨Nat.zero_le n, fun hn _ => hn⟩
      · next bs fd' hread =>
        have hle := Fd.length_read_le hread
        split
        · next hgo =>
          obtain ⟨hin, hfail⟩ := ih (n - bs.length) (by omega) fd'
          simp only [List.length_append]
          refine ⟨by omega, fun _ hfailed => ?_⟩
          have := hfail hgo.1 hfailed
          omega
        · exact ⟨hle, fun _ hfailed => by cases hfailed⟩

/-- The loop sees no further into the file than its room. -/
theorem readLoop_congr (n : Nat) : ∀ (l l' : List UInt8)
    (script : List Call), l.take n = l'.take n →
      (readLoop ⟨l, script⟩ n).failed = (readLoop ⟨l', script⟩ n).failed
        ∧ (readLoop ⟨l, script⟩ n).got = (readLoop ⟨l', script⟩ n).got := by
  induction n using Nat.strong_induction_on with
  | _ n ih =>
      intro l l' script htake
      rw [readLoop, readLoop]
      cases hans : answer script n with
      | mk k script' =>
          cases k with
          | none => simp only [Fd.read, hans, and_self]
          | some k =>
              have hk : k ≤ n := answer_le hans
              have hbs : l.take k = l'.take k := by
                have := congrArg (List.take k) htake
                rwa [List.take_take, List.take_take, Nat.min_eq_left hk]
                  at this
              simp only [Fd.read, hans, ← hbs]
              split
              · next hgo =>
                have hlen := congrArg List.length hbs
                rw [List.length_take, List.length_take] at hlen
                have hrest : (l.drop k).take (n - (l.take k).length)
                    = (l'.drop k).take (n - (l.take k).length) := by
                  rw [List.length_take]
                  rcases Nat.lt_or_ge l.length k with hlt | hge
                  · rw [List.drop_eq_nil_of_le (by omega),
                      List.drop_eq_nil_of_le (by omega)]
                  · rw [Nat.min_eq_left hge, ← List.drop_take,
                      ← List.drop_take, htake]
                obtain ⟨hfailed, hgot⟩ := ih (n - (l.take k).length)
                  (by omega) (l.drop k) (l'.drop k) script' hrest
                exact ⟨hfailed, by rw [hgot]⟩
              · exact ⟨rfl, rfl⟩

/-- What reading in rounds of `n` bytes delivers, up to a round that reads
nothing more; `none` when a call fails. -/
def readAll (n : Nat) (fd : Fd) : Option (List UInt8) :=
  let r := readLoop fd n
  if _h : r.failed = true then none
  else if _h : r.atEnd = true then some r.got
  else (readAll n r.fd).map (r.got ++ ·)
termination_by fd.rest.length
decreasing_by
  have hrest := readLoop_rest fd n
  have hgot := hrest.2 (by simpa using ‹¬ r.failed = true›)
    (by simpa using ‹¬ r.atEnd = true›)
  have hless : (readLoop fd n).fd.rest.length < fd.rest.length := by omega
  exact hless

private theorem take_append_rest {l : List UInt8} {k n : Nat}
    (h : k ≤ n) :
    l.take k ++ (l.drop k).take (n - (l.take k).length) = l.take n := by
  rw [List.length_take]
  rcases Nat.le_total k l.length with hk | hk
  · rw [Nat.min_eq_left hk, ← List.take_add, Nat.add_sub_cancel' h]
  · rw [List.drop_eq_nil_of_le hk, List.take_nil, List.append_nil,
      List.take_of_length_le hk, List.take_of_length_le (by omega)]

private theorem drop_rest {l : List UInt8} {k n : Nat} (h : k ≤ n) :
    (l.drop k).drop (n - (l.take k).length) = l.drop n := by
  rw [List.length_take]
  rcases Nat.le_total k l.length with hk | hk
  · rw [Nat.min_eq_left hk, List.drop_drop, Nat.add_sub_cancel' h]
  · rw [List.drop_eq_nil_of_le hk, List.drop_nil,
      List.drop_eq_nil_of_le (by omega)]

/-- With every call making progress the loop reads all that fits, and
it ends on a call that read nothing exactly when the file ended before
the room did. -/
theorem readLoop_of_progress (n : Nat) :
    ∀ fd : Fd, (∀ c ∈ fd.script, c.Progress) → 0 < n →
      (readLoop fd n).failed = false
        ∧ (readLoop fd n).got = fd.rest.take n
        ∧ (readLoop fd n).fd.rest = fd.rest.drop n
        ∧ (∀ c ∈ (readLoop fd n).fd.script, c.Progress)
        ∧ ((readLoop fd n).atEnd = true ↔ fd.rest.length < n) := by
  induction n using Nat.strong_induction_on with
  | _ n ih =>
      intro fd hscript hn
      obtain ⟨k, script, hans, hk, hkn, hscript'⟩ :=
        answer_of_progress hscript hn
      have hread : fd.read n = (some (fd.rest.take k),
          { rest := fd.rest.drop k, script := script }) := by
        rw [Fd.read, hans]
      rw [readLoop]
      split
      · next h => rw [hread] at h; cases h
      · next bs fd' h =>
        rw [hread] at h
        injection h with hbs hfd
        injection hbs with hbs
        subst hbs hfd
        have hlen : (fd.rest.take k).length = min k fd.rest.length :=
          List.length_take
        split
        · next hgo =>
          obtain ⟨hf, hgot, hrest, hsc, hend⟩ :=
            ih (n - (fd.rest.take k).length) (by omega)
              { rest := fd.rest.drop k, script := script } hscript' hgo.1
          refine ⟨hf, ?_, ?_, hsc, ?_⟩
          · exact (congrArg _ hgot).trans (take_append_rest hkn)
          · exact hrest.trans (drop_rest hkn)
          · refine hend.trans ?_
            show (fd.rest.drop k).length < _ ↔ _
            rw [hlen, List.length_drop]
            omega
        · next hstop =>
          -- the loop stops: the room is used up, or the file is
          have hcase : n ≤ min k fd.rest.length ∨ fd.rest.length = 0 := by
            omega
          refine ⟨rfl, ?_, ?_, hscript', ?_⟩
          · rcases hcase with hcase | hcase
            · rw [show k = n by omega]
            · rw [List.length_eq_zero_iff.1 hcase, List.take_nil,
                List.take_nil]
          · rcases hcase with hcase | hcase
            · rw [show k = n by omega]
            · rw [List.length_eq_zero_iff.1 hcase, List.drop_nil,
                List.drop_nil]
          · rw [List.isEmpty_iff, ← List.length_eq_zero_iff, hlen]
            omega

/-- With every call making progress the whole file is delivered. -/
theorem readAll_of_progress {n : Nat} (hn : 0 < n) (fd : Fd)
    (h : ∀ c ∈ fd.script, c.Progress) : readAll n fd = some fd.rest := by
  induction hlen : fd.rest.length using Nat.strong_induction_on
    generalizing fd with
  | _ k ih =>
      obtain ⟨hfailed, hgot, hrest, hscript, hend⟩ :=
        readLoop_of_progress n fd h hn
      rw [readAll]
      generalize readLoop fd n = r at hfailed hgot hrest hscript hend
      rw [dif_neg (by rw [hfailed]; simp)]
      by_cases hatEnd : r.atEnd = true
      · rw [dif_pos hatEnd, hgot,
          List.take_of_length_le (Nat.le_of_lt (hend.1 hatEnd))]
      · have hlong : ¬ fd.rest.length < n := fun hlt => hatEnd (hend.2 hlt)
        rw [dif_neg hatEnd, ih r.fd.rest.length
          (by rw [hrest, List.length_drop]; omega) r.fd hscript rfl,
          Option.map_some, hgot, hrest, List.take_append_drop]

-- ========================================================= writing

/-- How a write loop ends: whether its last call failed, and the bytes
that reached the file. -/
structure WriteEnd where
  failed : Bool
  written : List UInt8

/-- The write loop over the bytes `buf`. -/
def writeLoop (script : List Call) (buf : List UInt8) : WriteEnd :=
  match answer script buf.length with
  | (none, _) => { failed := true, written := [] }
  | (some k, script) =>
      if _h : 0 < buf.length - k ∧ 0 < k then
        let r := writeLoop script (buf.drop k)
        { r with written := buf.take k ++ r.written }
      else { failed := false, written := buf.take k }
termination_by buf.length
decreasing_by
  simp only [List.length_drop]
  omega

/-- With every call making progress the loop writes everything. -/
theorem writeLoop_of_progress (buf : List UInt8) :
    ∀ script : List Call, (∀ c ∈ script, c.Progress) →
      writeLoop script buf = { failed := false, written := buf } := by
  induction hlen : buf.length using Nat.strong_induction_on
    generalizing buf with
  | _ n ih =>
      intro script hscript
      rcases Nat.eq_zero_or_pos n with rfl | hpos
      · have hnil := List.length_eq_zero_iff.1 hlen
        subst hnil
        rw [writeLoop]
        cases script with
        | nil => rfl
        | cons c script =>
            cases c with
            | upTo k => simp [answer]
            | fail => exact (hscript _ List.mem_cons_self).elim
      · obtain ⟨k, script', hans, hk, hkn, hscript'⟩ :=
          answer_of_progress hscript (by omega : 0 < buf.length)
        rw [writeLoop, hans]
        simp only
        split
        · next hgo =>
          rw [ih (buf.drop k).length (by rw [List.length_drop]; omega) _
            rfl script' hscript']
          simp
        · next hstop => rw [List.take_of_length_le (by omega)]

end Transfer

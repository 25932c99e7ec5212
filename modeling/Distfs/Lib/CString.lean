/-
Strings behind pointers, and the stores a C function makes into a buffer
of its caller.

# Reading

`strlen` and `strncpy` follow a pointer up to the NUL. `strlen` has no
other bound than the address space; past that there is no answer.
`CStr.strlen` and `CStr.strncpyFrom` say what the two do where a string
stands.

# Writing

A buffer handed in by the caller has a size the callee is told, and
nothing stops the callee from leaving it. So what a call does to the
buffer is a list of stores: `Touches` says which bytes they reach,
`Within` that they reach no others, `perform` what they leave. Strings
laid out one behind the other (`consecutive`) are the case with laws of
its own.
-/
import Distfs.Lib.Memory

namespace Mem

-- ============================================ strings behind pointers

/-- The loop of `strlen`. -/
def strlenFrom (m : Mem) (a : Nat) : Nat → Option Nat
  | 0 => none
  | fuel + 1 =>
      if m a = 0 then some 0 else (strlenFrom m (a + 1) fuel).map (· + 1)

/-- `strlen` of the string at `a`. -/
def strlen (m : Mem) (a : Nat) : Option Nat := strlenFrom m a (2 ^ 64)

/-- The bytes `strncpy(dst, src, n)` stores, `src` pointing to `a`. -/
def strncpyFrom (m : Mem) (a : Nat) : Nat → List UInt8
  | 0 => []
  | n + 1 =>
      if m a = 0 then List.replicate (n + 1) 0
      else m a :: strncpyFrom m (a + 1) n

/-- `strlen` finds the NUL, given enough steps. -/
theorem CStr.strlenFrom {m : Mem} {a fuel : Nat} {s : List UInt8}
    (h : m.CStr a s) (h0 : 0 ∉ s) (hfuel : s.length < fuel) :
    m.strlenFrom a fuel = some s.length := by
  induction s generalizing a fuel with
  | nil =>
      obtain ⟨fuel, rfl⟩ := Nat.exists_eq_succ_of_ne_zero
        (Nat.ne_of_gt hfuel)
      rw [Mem.strlenFrom, if_pos (CStr.nil_iff.1 h)]
      rfl
  | cons b s ih =>
      obtain ⟨hb, hs⟩ := CStr.cons_iff.1 h
      obtain ⟨fuel, rfl⟩ := Nat.exists_eq_succ_of_ne_zero
        (Nat.ne_of_gt (Nat.lt_of_le_of_lt (Nat.zero_le _) hfuel))
      have hb0 : m a ≠ 0 := by
        rw [hb]
        exact fun heq => h0 (heq ▸ List.mem_cons_self)
      rw [List.length_cons] at hfuel
      rw [Mem.strlenFrom, if_neg hb0,
        ih hs (fun hmem => h0 (List.mem_cons_of_mem _ hmem)) (by omega)]
      rfl

/-- `strlen` answers the length of the string. -/
theorem CStr.strlen {m : Mem} {a : Nat} {s : List UInt8} (h : m.CStr a s)
    (h0 : 0 ∉ s) (hlen : s.length < 2 ^ 64) :
    m.strlen a = some s.length := h.strlenFrom h0 hlen

/-- `strncpy` copies a byte that is not NUL. -/
theorem strncpyBytes_cons {b : UInt8} {s : List UInt8} {n : Nat}
    (hb : b ≠ 0) :
    strncpyBytes (b :: s) (n + 1) = b :: strncpyBytes s n := by
  have htake : (b :: s).takeWhile (· ≠ 0) = b :: s.takeWhile (· ≠ 0) := by
    rw [List.takeWhile_cons_of_pos (by simpa using hb)]
  rw [strncpyBytes, htake, List.take_succ_cons, strncpyBytes]
  simp only [List.length_cons, List.cons_append, Nat.add_sub_add_right]

/-- `strncpy` from a pointer stores what it stores of the string. -/
theorem CStr.strncpyFrom {m : Mem} {a n : Nat} {s : List UInt8}
    (h : m.CStr a s) (h0 : 0 ∉ s) :
    m.strncpyFrom a n = strncpyBytes s n := by
  induction n generalizing a s with
  | zero => simp [Mem.strncpyFrom, strncpyBytes]
  | succ n ih =>
      cases s with
      | nil =>
          rw [Mem.strncpyFrom, if_pos (CStr.nil_iff.1 h)]
          rfl
      | cons b s =>
          obtain ⟨hb, hs⟩ := CStr.cons_iff.1 h
          have hb0 : b ≠ 0 := fun heq => h0 (heq ▸ List.mem_cons_self)
          rw [Mem.strncpyFrom, hb, if_neg hb0, strncpyBytes_cons hb0,
            ih hs fun hmem => h0 (List.mem_cons_of_mem _ hmem)]

/-- A NUL-free string that fits is padded. -/
theorem strncpyBytes_pad {s : List UInt8} {n : Nat} (h0 : 0 ∉ s)
    (h : s.length ≤ n) :
    strncpyBytes s n = s ++ List.replicate (n - s.length) 0 := by
  have hall : s.takeWhile (· ≠ 0) = s := by
    rw [List.takeWhile_eq_self_iff]
    intro b hb
    simpa using fun heq : b = 0 => h0 (heq ▸ hb)
  rw [strncpyBytes, hall, List.take_of_length_le h]

/-- A string stands where it was written with its terminator. -/
theorem cstr_write_append {m : Mem} {a : Nat} {s rest : List UInt8} :
    (m.write a (s ++ 0 :: rest)).CStr a s := by
  have hself := congrArg (List.take (s.length + 1))
    (read_write_self m a (s ++ 0 :: rest))
  rw [take_read, List.length_append, List.length_cons,
    Nat.min_eq_left (by omega)] at hself
  rw [CStr, hself, List.take_length_add_append]
  rfl

/-- Behind a string is its NUL. -/
theorem CStr.terminator {m : Mem} {a : Nat} {s : List UInt8}
    (h : m.CStr a s) : m (a + s.length) = 0 := by
  have hlast := congrArg (·[s.length]?) h
  simp only [List.getElem?_concat_length] at hlast
  rw [getElem?_read (Nat.lt_succ_self _), Option.some.injEq] at hlast
  exact hlast

-- ==================================================== stores

/-- Bytes stored at a position of a buffer. -/
structure Store where
  pos : Nat
  bytes : List UInt8
  deriving DecidableEq

/-- One of the stores reaches byte `i`. -/
def Touches (ws : List Store) (i : Nat) : Prop :=
  ∃ w ∈ ws, w.pos ≤ i ∧ i < w.pos + w.bytes.length

/-- The buffer after the stores. -/
def perform (ws : List Store) (m : Mem) : Mem :=
  ws.foldl (fun m w => m.write w.pos w.bytes) m

theorem touches_cons {w : Store} {ws : List Store} {i : Nat} :
    Touches (w :: ws) i
      ↔ (w.pos ≤ i ∧ i < w.pos + w.bytes.length) ∨ Touches ws i := by
  simp [Touches]

/-- What no store touches stays. -/
theorem perform_untouched {ws : List Store} {i : Nat} :
    ∀ m : Mem, ¬ Touches ws i → perform ws m i = m i := by
  induction ws with
  | nil => exact fun m _ => rfl
  | cons w ws ih =>
      intro m h
      rw [touches_cons, not_or] at h
      show perform ws (m.write w.pos w.bytes) i = m i
      rw [ih _ h.2, write_outside m (by omega)]

/-- Stores in two parts. -/
theorem perform_append (ws us : List Store) (m : Mem) :
    perform (ws ++ us) m = perform us (perform ws m) :=
  List.foldl_append

/-- The stores stay within the bytes from `lo` up to `hi`. -/
def Within (lo hi : Nat) (ws : List Store) : Prop :=
  ∀ w ∈ ws, lo ≤ w.pos ∧ w.pos + w.bytes.length ≤ hi

theorem within_nil {lo hi : Nat} : Within lo hi [] :=
  fun w hw => by cases hw

/-- Stores in two parts stay within what both do. -/
theorem Within.append {lo hi : Nat} {ws us : List Store}
    (h : Within lo hi ws) (h' : Within lo hi us) : Within lo hi (ws ++ us) :=
  fun w hw => (List.mem_append.1 hw).elim (h w) (h' w)

/-- What is within a range is within a larger one. -/
theorem Within.mono {lo hi lo' hi' : Nat} {ws : List Store}
    (h : Within lo hi ws) (hlo : lo' ≤ lo) (hhi : hi ≤ hi') :
    Within lo' hi' ws :=
  fun w hw => ⟨Nat.le_trans hlo (h w hw).1, Nat.le_trans (h w hw).2 hhi⟩

/-- Outside of them nothing changes. -/
theorem Within.untouched {lo hi i : Nat} {ws : List Store}
    (h : Within lo hi ws) (hi' : i < lo ∨ hi ≤ i) (m : Mem) :
    perform ws m i = m i :=
  perform_untouched m fun ⟨w, hw, hle, hlt⟩ => by
    have := h w hw
    omega

/-- The strings, one behind the other from `pos` on. -/
def consecutive : Nat → List (List UInt8) → List Store
  | _, [] => []
  | pos, s :: ss =>
      { pos := pos, bytes := s } :: consecutive (pos + s.length) ss

/-- They reach just the bytes they fill. -/
theorem touches_consecutive {ss : List (List UInt8)} {i : Nat} :
    ∀ pos, Touches (consecutive pos ss) i
      ↔ pos ≤ i ∧ i < pos + ss.flatten.length := by
  induction ss with
  | nil =>
      intro pos
      simp [consecutive, Touches]
  | cons s ss ih =>
      intro pos
      rw [consecutive, touches_cons, ih, List.flatten_cons, List.length_append]
      simp only
      omega

/-- They leave the concatenation. -/
theorem read_consecutive {ss : List (List UInt8)} :
    ∀ (pos : Nat) (m : Mem),
      (perform (consecutive pos ss) m).read pos ss.flatten.length
        = ss.flatten := by
  induction ss with
  | nil => exact fun _ _ => rfl
  | cons s ss ih =>
      intro pos m
      -- the strings behind leave this one alone
      have hkeep : (perform (consecutive (pos + s.length) ss)
          (m.write pos s)).read pos s.length = s := by
        refine (read_congr fun i hlo hhi => perform_untouched _ ?_).trans
          (read_write_self m pos s)
        rw [touches_consecutive]
        omega
      rw [List.flatten_cons, List.length_append, read_add]
      exact congrArg₂ (· ++ ·) hkeep (ih (pos + s.length) _)

end Mem

/-
`strtol` in base 16, on the bytes before the terminating NUL.

White space, a sign and `0x` may precede the digits; the result saturates
at the ends of a 64-bit `long`. What is left after the digits is what
`endptr` points at; without digits it is the whole string.

A nonempty string of digits alone is read to its end, and in full if it
fits (`strtol_digits`). How digits are printed is a parameter there.
-/
import Mathlib.Data.Nat.Digits.Defs

namespace Strtol

/-- `isspace`. -/
def isSpace (c : UInt8) : Bool :=
  c.toNat = 32 ∨ (9 ≤ c.toNat ∧ c.toNat ≤ 13)

/-- The value of a digit. -/
def digit (c : UInt8) : Option Nat :=
  if 48 ≤ c.toNat ∧ c.toNat ≤ 57 then some (c.toNat - 48)
  else if 65 ≤ c.toNat ∧ c.toNat ≤ 70 then some (c.toNat - 55)
  else if 97 ≤ c.toNat ∧ c.toNat ≤ 102 then some (c.toNat - 87)
  else none

/-- Whether the number is negative, and what follows the sign. -/
def sign : List UInt8 → Bool × List UInt8
  | [] => (false, [])
  | c :: s =>
      if c.toNat = 45 then (true, s)
      else if c.toNat = 43 then (false, s)
      else (false, c :: s)

/-- What follows `0x`, if a digit does. -/
def skipPrefix : List UInt8 → List UInt8
  | z :: x :: c :: s =>
      if z.toNat = 48 ∧ (x.toNat = 88 ∨ x.toNat = 120) ∧ (digit c).isSome then
        c :: s
      else z :: x :: c :: s
  | s => s

/-- Read digits, `v` being the value of those before. -/
def readDigits : Nat → List UInt8 → Nat × List UInt8
  | v, [] => (v, [])
  | v, c :: s =>
      match digit c with
      | none => (v, c :: s)
      | some d => readDigits (16 * v + d) s

/-- `strtol(s, &end, 16)`: the value, and what `end` points at. -/
def strtol (s : List UInt8) : Int × List UInt8 :=
  let (negative, t) := sign (s.dropWhile isSpace)
  match skipPrefix t with
  | [] => (0, s)
  | c :: t =>
      if (digit c).isSome then
        let (v, rest) := readDigits 0 (c :: t)
        if negative then (max (-(v : Int)) (-2 ^ 63), rest)
        else (min (v : Int) (2 ^ 63 - 1), rest)
      else (0, s)

/-- The value of digits, the most significant first. -/
def value (ds : List Nat) : Nat := ds.foldl (fun v d => 16 * v + d) 0

theorem value_reverse (ds : List Nat) :
    value ds.reverse = Nat.ofDigits 16 ds := by
  rw [value, List.foldl_reverse]
  induction ds with
  | nil => rfl
  | cons d ds ih =>
      rw [List.foldr_cons, ih, Nat.ofDigits_cons]
      exact Nat.add_comm _ _

section Digits

variable {print : Nat → UInt8} {ds : List Nat}
  (h : ∀ d ∈ ds, digit (print d) = some d)

include h in
theorem readDigits_map :
    ∀ v, readDigits v (ds.map print)
      = (ds.foldl (fun v d => 16 * v + d) v, []) := by
  induction ds with
  | nil => exact fun v => rfl
  | cons d ds ih =>
      intro v
      rw [List.map_cons, readDigits, h d List.mem_cons_self]
      exact ih (fun e he => h e (List.mem_cons_of_mem _ he)) _

/-- A digit is none of the characters that may precede one. -/
theorem digit_range {c : UInt8} (h : (digit c).isSome) :
    48 ≤ c.toNat ∧ c.toNat ≤ 102 ∧ c.toNat ≠ 88 := by
  unfold digit at h
  split at h
  · omega
  · split at h
    · omega
    · split at h
      · omega
      · cases h

/-- Nothing is skipped in front of digits. -/
theorem skipPrefix_of_digits {s : List UInt8}
    (hs : ∀ c ∈ s, (digit c).isSome) : skipPrefix s = s := by
  rcases s with _ | ⟨z, _ | ⟨x, _ | ⟨c, s⟩⟩⟩
  · rfl
  · rfl
  · rfl
  · have hx := digit_range (hs x (by simp))
    apply if_neg
    omega

include h in
/-- A string of digits is read to its end. -/
theorem strtol_digits (hne : ds ≠ []) (hfits : value ds < 2 ^ 63) :
    strtol (ds.map print) = ((value ds : Int), []) := by
  have hdigit : ∀ c ∈ ds.map print, (digit c).isSome := by
    intro c hc
    obtain ⟨d, hd, rfl⟩ := List.mem_map.1 hc
    rw [h d hd]
    rfl
  have hread := readDigits_map h 0
  have hskip := skipPrefix_of_digits hdigit
  obtain ⟨c, t, hs⟩ := List.exists_cons_of_ne_nil
    fun hnil => hne (List.map_eq_nil_iff.1 hnil)
  rw [hs] at hdigit hread hskip
  have hc := hdigit c List.mem_cons_self
  have hrange := digit_range hc
  have hspace : ¬ isSpace c = true := by
    rw [isSpace, decide_eq_true_iff]
    omega
  have hsign : sign (c :: t) = (false, c :: t) := by
    rw [sign, if_neg (by omega), if_neg (by omega)]
  rw [hs, strtol, List.dropWhile_cons_of_neg hspace, hsign]
  simp only [hskip, hc, if_true, hread, Bool.false_eq_true, if_false]
  rw [show ds.foldl (fun v d => 16 * v + d) 0 = value ds from rfl,
    min_eq_left (by omega)]

end Digits

end Strtol

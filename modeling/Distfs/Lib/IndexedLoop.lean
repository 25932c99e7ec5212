/-
Loops over a vector with a 32-bit index.

`for (unsigned i = 0; i < xs.size(); i++)` compares an index of 32 bits
with a size of 64. Where the size is an index, the loop is a sweep over
the elements in order. Where it is not, the index wraps before it gets
there, and every turn is followed by another one (`run_eq_none`).
`run_eq_some_iff` is the rule that a proof about such a loop starts with.

The loop is cut at a number of turns, so that it can be said of it that
it does not end.
-/
import Mathlib.Data.UInt

namespace IndexedLoop

variable {α β : Type} (body : Nat → α → β → β)

/-- The loop from index `i` on; `none` if more than `fuel` turns are
needed. -/
def run (xs : List α) : Nat → UInt32 → β → Option β
  | fuel, i, s =>
      match xs[i.toNat]? with
      | none => some s
      | some x =>
          match fuel with
          | 0 => none
          | fuel + 1 => run xs fuel (i + 1) (body i.toNat x s)

/-- The elements in order, each with its index, from `i` on. -/
def sweep : Nat → List α → β → β
  | _, [], s => s
  | i, x :: xs, s => sweep (i + 1) xs (body i x s)

variable {body} {xs : List α}

theorem toNat_add_one {i : UInt32} (h : i.toNat + 1 < 2 ^ 32) :
    (i + 1).toNat = i.toNat + 1 := by
  rw [UInt32.toNat_add]
  exact Nat.mod_eq_of_lt h

/-- From index `i` on, the loop sweeps over what is left, if there are
turns enough. -/
theorem run_from (hxs : xs.length < 2 ^ 32) (fuel : Nat) :
    ∀ (i : UInt32) (s : β), i.toNat ≤ xs.length →
      run body xs fuel i s
        = if xs.length ≤ i.toNat + fuel then
            some (sweep body i.toNat (xs.drop i.toNat) s)
          else none := by
  induction fuel with
  | zero =>
      intro i s hi
      rw [Nat.add_zero]
      unfold run
      rcases Nat.lt_or_eq_of_le hi with hlt | heq
      · rw [List.getElem?_eq_getElem hlt, if_neg (by omega)]
      · have hle := Nat.le_of_eq heq.symm
        rw [List.getElem?_eq_none hle, List.drop_eq_nil_of_le hle, if_pos hle]
        rfl
  | succ fuel ih =>
      intro i s hi
      unfold run
      rcases Nat.lt_or_eq_of_le hi with hlt | heq
      · have hnext := @toNat_add_one i (by omega)
        rw [List.getElem?_eq_getElem hlt, List.drop_eq_getElem_cons hlt]
        simp only
        rw [ih (i + 1) _ (by omega), hnext, Nat.add_right_comm]
        rfl
      · have hle := Nat.le_of_eq heq.symm
        rw [List.getElem?_eq_none hle, List.drop_eq_nil_of_le hle,
          if_pos (by omega)]
        rfl

/-- A size that is no index is never reached. -/
theorem run_eq_none (hxs : 2 ^ 32 ≤ xs.length) (fuel : Nat) :
    ∀ (i : UInt32) (s : β), run body xs fuel i s = none := by
  induction fuel with
  | zero =>
      intro i s
      have hi := i.toNat_lt
      unfold run
      rw [List.getElem?_eq_getElem (by omega)]
  | succ fuel ih =>
      intro i s
      have hi := i.toNat_lt
      unfold run
      rw [List.getElem?_eq_getElem (by omega)]
      exact ih _ _

/-- What the loop ends with, and when it does. -/
theorem run_eq_some_iff {fuel : Nat} {s r : β} :
    run body xs fuel 0 s = some r
      ↔ xs.length < 2 ^ 32 ∧ xs.length ≤ fuel ∧ r = sweep body 0 xs s := by
  rcases Nat.lt_or_ge xs.length (2 ^ 32) with hlt | hge
  · rw [@run_from α β body xs hlt fuel 0 s (Nat.zero_le _)]
    simp only [UInt32.toNat_zero, Nat.zero_add, List.drop_zero]
    by_cases hfuel : xs.length ≤ fuel
    · rw [if_pos hfuel, Option.some.injEq]
      exact ⟨fun h => ⟨hlt, hfuel, h.symm⟩, fun ⟨_, _, h⟩ => h.symm⟩
    · rw [if_neg hfuel]
      exact ⟨fun h => (by cases h), fun ⟨_, h, _⟩ => absurd h hfuel⟩
  · rw [run_eq_none hge]
    exact ⟨fun h => (by cases h), fun ⟨h, _⟩ => by omega⟩

end IndexedLoop

/-
Binary search between two `int` indices, both inclusive.

`find` is the loop
`while (a < b) { m = (a + b) / 2; ... a = m + 1 ... b = m - 1 ... }`
followed by one more comparison at `a`. The sum `a + b` is an `int`:
past `limit` it overflows, which is `none`. The array is seen through
`cmp`, how its elements compare with the one searched for.

# Results

- `find_index`: an answer is an index of the range that compares equal.
- `find_spec`: in a sorted array too small to overflow the search is
  exact.
- `find_overflow`: in one that is large enough, the search for the last
  element overflows.
- `find_probes`: no index is looked at outside of the range, sorted or
  not (`findLogged` is the search with a record of the indices).
-/
import Mathlib.Algebra.Order.Group.Nat
import Mathlib.Data.Int.Order.Basic

namespace BinarySearch

/-- The loop, and the comparison after it. -/
def find (cmp : Nat → Ordering) (limit : Int) (a b : Int) :
    Option (Option Nat) :=
  if _h : a < b then
    if limit < a + b then none
    else
      let m := (a + b) / 2
      match cmp m.toNat with
      | .eq => some (some m.toNat)
      | .lt => find cmp limit (m + 1) b
      | .gt => find cmp limit a (m - 1)
  else
    match cmp a.toNat with
    | .eq => some (some a.toNat)
    | _ => some none
termination_by (b - a).toNat
decreasing_by
  all_goals omega

/-- The search, and the indices it compares at. -/
def findLogged (cmp : Nat → Ordering) (limit : Int) (a b : Int) :
    Option (Option Nat) × List Int :=
  if _h : a < b then
    if limit < a + b then (none, [])
    else
      let m := (a + b) / 2
      match cmp m.toNat with
      | .eq => (some (some m.toNat), [m])
      | .lt =>
          let r := findLogged cmp limit (m + 1) b
          (r.1, m :: r.2)
      | .gt =>
          let r := findLogged cmp limit a (m - 1)
          (r.1, m :: r.2)
  else
    match cmp a.toNat with
    | .eq => (some (some a.toNat), [a])
    | _ => (some none, [a])
termination_by (b - a).toNat
decreasing_by
  all_goals omega

/-- The elements are in strictly ascending order. -/
def Ascending (cmp : Nat → Ordering) (n : Nat) : Prop :=
  ∀ i j, i < j → j < n →
    (cmp i = .lt ∨ cmp j = .gt)
      ∧ (cmp j = .lt → cmp i = .lt) ∧ (cmp i = .gt → cmp j = .gt)

variable {cmp : Nat → Ordering} {limit : Int}

/-- Comparing a strictly ascending array with one element. -/
theorem ascending_of_lt {α : Type} [LE α] [LT α] [Std.IsLinearOrder α]
    [Std.LawfulOrderLT α] {n : Nat} {x : Nat → α} {t : α}
    (hlt : ∀ i, i < n → (cmp i = .lt ↔ x i < t))
    (heq : ∀ i, i < n → (cmp i = .eq ↔ x i = t))
    (hmono : ∀ i j, i < j → j < n → x i < x j) : Ascending cmp n := by
  intro i j hij hj
  have hi : i < n := Nat.lt_trans hij hj
  have hxx := hmono i j hij hj
  -- what is not below and not equal is above
  have habove : t ≤ x i → cmp j = .gt := by
    intro hle
    have hgt := Std.lt_of_le_of_lt hle hxx
    cases hc : cmp j with
    | lt => exact absurd ((hlt j hj).1 hc) (Std.not_lt.2 (Std.le_of_lt hgt))
    | eq =>
        rw [(heq j hj).1 hc] at hgt
        exact absurd hgt Std.lt_irrefl
    | gt => rfl
  refine ⟨?_, ?_, ?_⟩
  · by_cases hx : x i < t
    · exact .inl ((hlt i hi).2 hx)
    · exact .inr (habove (Std.not_lt.1 hx))
  · exact fun hc => (hlt i hi).2 (Std.lt_trans hxx ((hlt j hj).1 hc))
  · intro hc
    refine habove (Std.not_lt.1 fun hx => ?_)
    rw [(hlt i hi).2 hx] at hc
    cases hc

namespace Ascending

variable {n i j m : Nat}

/-- Two indices that compare equal are the same. -/
theorem unique (h : Ascending cmp n) (hi : i < n) (hj : j < n)
    (hci : cmp i = .eq) (hcj : cmp j = .eq) : i = j := by
  rcases Nat.lt_trichotomy i j with hlt | heq | hgt
  · have horder := (h i j hlt hj).1
    rw [hci, hcj] at horder
    simp at horder
  · exact heq
  · have horder := (h j i hgt hi).1
    rw [hci, hcj] at horder
    simp at horder

/-- What compares equal is behind everything smaller. -/
theorem lt_of_eq (h : Ascending cmp n) (hm : m < n) (hlt : cmp m = .lt)
    (hci : cmp i = .eq) : m < i := by
  by_contra hle
  rcases Nat.lt_or_eq_of_le (Nat.not_lt.1 hle) with him | him
  · have hc := (h i m him hm).2.1 hlt
    rw [hci] at hc
    cases hc
  · rw [← him, hci] at hlt
    cases hlt

/-- What compares equal is before everything larger. -/
theorem gt_of_eq (h : Ascending cmp n) (hi : i < n) (hgt : cmp m = .gt)
    (hci : cmp i = .eq) : i < m := by
  by_contra hle
  rcases Nat.lt_or_eq_of_le (Nat.not_lt.1 hle) with hmi | hmi
  · have hc := (h m i hmi hi).2.2 hgt
    rw [hci] at hc
    cases hc
  · rw [hmi, hci] at hgt
    cases hgt

end Ascending

/-- An answer is an index of the range that compares equal. -/
theorem find_index {n i : Nat} {a b : Int} (ha : 0 ≤ a) (han : a < n)
    (hb : b < n) (h : find cmp limit a b = some (some i)) :
    i < n ∧ cmp i = .eq := by
  induction hd : (b - a).toNat using Nat.strong_induction_on
    generalizing a b with
  | _ d ih =>
      rw [find] at h
      split at h
      · split at h
        · cases h
        · dsimp only at h
          split at h
          · next heq =>
            cases h
            exact ⟨by omega, heq⟩
          · exact ih _ (by omega) (by omega) (by omega) hb h rfl
          · exact ih _ (by omega) ha han (by omega) h rfl
      · split at h
        · next heq =>
          cases h
          exact ⟨by omega, heq⟩
        · cases h

private theorem find_spec_aux {n : Nat} (hasc : Ascending cmp n)
    {a b : Int} (ha : 0 ≤ a) (han : a < n) (hb : b < n)
    (hlimit : ∀ x : Int, x < b → x + b ≤ limit)
    (hinside : ∀ i, i < n → cmp i = .eq → a ≤ i ∧ i ≤ b) :
    ∃ r, find cmp limit a b = some r
      ∧ ∀ i, i < n → (cmp i = .eq ↔ r = some i) := by
  have hfound : ∀ k, k < n → cmp k = .eq →
      ∀ i, i < n → (cmp i = .eq ↔ some k = some i) := by
    intro k hk hck i hi
    rw [Option.some.injEq]
    exact ⟨hasc.unique hk hi hck, fun hki => hki ▸ hck⟩
  induction hd : (b - a).toNat using Nat.strong_induction_on
    generalizing a b with
  | _ d ih =>
      rw [find]
      split
      · next hab =>
        rw [if_neg (by have := hlimit a hab; omega)]
        have hm : ((a + b) / 2).toNat < n := by omega
        dsimp only
        split
        · next heq => exact ⟨_, rfl, hfound _ hm heq⟩
        · next hlt =>
          refine ih _ ?_ (by omega) (by omega) hb hlimit ?_ rfl
          · omega
          · intro i hi hci
            have hafter := hasc.lt_of_eq hm hlt hci
            exact ⟨by omega, (hinside i hi hci).2⟩
        · next hgt =>
          refine ih _ ?_ ha han (by omega) ?_ ?_ rfl
          · omega
          · intro x hx
            have := hlimit x (by omega)
            omega
          · intro i hi hci
            have hbefore := hasc.gt_of_eq hi hgt hci
            exact ⟨(hinside i hi hci).1, by omega⟩
      · next hab =>
        have hm : a.toNat < n := by omega
        split
        · next heq => exact ⟨_, rfl, hfound _ hm heq⟩
        · next hne =>
          refine ⟨none, rfl, fun i hi => ⟨fun hci => ?_, fun h => by cases h⟩⟩
          -- only `a` is left
          have hbound := hinside i hi hci
          have hia : i = a.toNat := by omega
          rw [hia] at hci
          exact absurd hci hne

/-- In a sorted array of `n` elements, small enough for the sums, the
search finds exactly the element that compares equal. -/
theorem find_spec {n : Nat} (hasc : Ascending cmp n) (hn : 0 < n)
    (hlimit : 2 * (n : Int) - 3 ≤ limit) :
    ∃ r, find cmp limit 0 ((n : Int) - 1) = some r
      ∧ ∀ i, i < n → (cmp i = .eq ↔ r = some i) :=
  find_spec_aux hasc (Int.le_refl 0) (by omega) (by omega)
    (fun x hx => by omega) fun i hi _ => by omega

/-- With everything before the last element smaller, the search for it
overflows in an array that is large enough. -/
theorem find_overflow {n : Nat} {a : Int} (ha : 0 ≤ a)
    (hlt : a < (n : Int) - 1)
    (hsmall : ∀ i, i + 1 < n → cmp i = .lt)
    (hlimit : limit < 2 * ((n : Int) - 1) - 2) :
    find cmp limit a ((n : Int) - 1) = none := by
  induction hd : ((n : Int) - 1 - a).toNat using Nat.strong_induction_on
    generalizing a with
  | _ d ih =>
      rw [find, dif_pos hlt]
      split
      · rfl
      · next hsum =>
        have hm := hsmall ((a + ((n : Int) - 1)) / 2).toNat (by omega)
        simp only [hm]
        exact ih _ (by omega) (by omega) (by omega) rfl

-- ======================================================= the indices

/-- The record changes nothing. -/
theorem findLogged_fst (a b : Int) :
    (findLogged cmp limit a b).1 = find cmp limit a b := by
  induction hd : (b - a).toNat using Nat.strong_induction_on
    generalizing a b with
  | _ d ih =>
      rw [findLogged, find]
      by_cases hab : a < b
      · rw [dif_pos hab, dif_pos hab]
        by_cases hsum : limit < a + b
        · rw [if_pos hsum, if_pos hsum]
        · rw [if_neg hsum, if_neg hsum]
          simp only
          cases cmp ((a + b) / 2).toNat with
          | eq => rfl
          | lt => exact ih _ (by omega) _ _ rfl
          | gt => exact ih _ (by omega) _ _ rfl
      · rw [dif_neg hab, dif_neg hab]
        cases cmp a.toNat <;> rfl

/-- The bounds may cross, but no index outside of the range is compared:
the upper bound is only looked at as an end of the range, and the lower
one passes the middle when there is something behind it. -/
theorem find_probes {n : Nat} {a b : Int} (ha : 0 ≤ a) (han : a < n)
    (hb : b < n) :
    ∀ i ∈ (findLogged cmp limit a b).2, 0 ≤ i ∧ i < (n : Int) := by
  induction hd : (b - a).toNat using Nat.strong_induction_on
    generalizing a b with
  | _ d ih =>
      intro i hi
      rw [findLogged] at hi
      by_cases hab : a < b
      · rw [dif_pos hab] at hi
        by_cases hsum : limit < a + b
        · rw [if_pos hsum] at hi
          cases hi
        · rw [if_neg hsum] at hi
          simp only at hi
          cases hcmp : cmp ((a + b) / 2).toNat with
          | eq =>
              rw [hcmp] at hi
              rw [List.mem_singleton.1 hi]
              omega
          | lt =>
              rw [hcmp] at hi
              rcases List.mem_cons.1 hi with rfl | hi
              · omega
              · exact ih _ (by omega) (by omega) (by omega) hb rfl i hi
          | gt =>
              rw [hcmp] at hi
              rcases List.mem_cons.1 hi with rfl | hi
              · omega
              · exact ih _ (by omega) ha han (by omega) rfl i hi
      · rw [dif_neg hab] at hi
        have hia : i = a := by
          cases hcmp : cmp a.toNat with
          | eq | lt | gt =>
              rw [hcmp] at hi
              exact List.mem_singleton.1 hi
        omega

end BinarySearch

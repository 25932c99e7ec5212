/-
Products modulo a power of two, and what one factor can change in them.

A product is zero modulo `2 ^ k` once its factors have `k` factors of two
between them, and then it stays zero whatever else it is multiplied by.
Short of that, an odd and an even factor give different results.
-/
import Mathlib.NumberTheory.Padics.PadicVal.Basic
import Mathlib.Tactic.Ring

namespace Dyadic

/-- How many factors of two the numbers of a list have. -/
def twos (l : List Nat) : Nat := (l.map (padicValNat 2)).sum

theorem twos_cons (n : Nat) (l : List Nat) :
    twos (n :: l) = padicValNat 2 n + twos l := by
  rw [twos, List.map_cons, List.sum_cons]
  rfl

theorem padicValNat_prod {l : List Nat} (h : ∀ n ∈ l, n ≠ 0) :
    padicValNat 2 l.prod = twos l := by
  induction l with
  | nil => exact padicValNat_one_right 2
  | cons n l ih =>
      have hl : ∀ m ∈ l, m ≠ 0 := fun m hm => h m (List.mem_cons_of_mem _ hm)
      rw [List.prod_cons, twos_cons, ← ih hl]
      apply padicValNat.mul
      · exact h n List.mem_cons_self
      · exact fun hzero => hl 0 (List.prod_eq_zero_iff.1 hzero) rfl

/-- A product is divisible by `2 ^ k` when its factors have `k` factors of
two. -/
theorem two_pow_dvd_prod_iff {l : List Nat} (h : ∀ n ∈ l, n ≠ 0) (k : Nat) :
    2 ^ k ∣ l.prod ↔ k ≤ twos l := by
  have hne : l.prod ≠ 0 := fun hzero =>
    h 0 (List.prod_eq_zero_iff.1 hzero) rfl
  rw [padicValNat_dvd_iff_le hne, padicValNat_prod h]

theorem mul_mod_eq_zero {p k : Nat} (h : 2 ^ k ∣ p) (a : Nat) :
    a * p % 2 ^ k = 0 :=
  Nat.mod_eq_zero_of_dvd (Dvd.dvd.mul_left h a)

/-- An odd and an even factor are told apart. -/
theorem mul_mod_ne {p k a b : Nat} (h : ¬ 2 ^ k ∣ p) (ha : ¬ 2 ∣ a)
    (hb : 2 ∣ b) : a * p % 2 ^ k ≠ b * p % 2 ^ k := by
  intro heq
  apply h
  have hdvd : ((2 : ℤ) ^ k) ∣ (p : ℤ) * ((a : ℤ) - b) := by
    have hmod := (Nat.modEq_iff_dvd (n := 2 ^ k)).1 heq.symm
    push_cast at hmod
    rwa [← sub_mul, Int.mul_comm] at hmod
  have hodd : ¬ (2 : ℤ) ∣ (a : ℤ) - b := by omega
  have hp := Int.prime_two.pow_dvd_of_dvd_mul_right k hodd hdvd
  exact_mod_cast hp

end Dyadic

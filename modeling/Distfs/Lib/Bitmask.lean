/-
Byte strings read as bit sets: bit `k` is bit `k % 8` of byte `k / 8`,
least significant first.
-/
import Mathlib.Data.List.GetD
import Mathlib.Data.Nat.Bitwise
import Mathlib.Algebra.Order.Group.Nat

namespace Bitmask

/-- Bit `k` of a byte string; bits past its end are clear. -/
def bitAt (s : List UInt8) (k : Nat) : Bool :=
  (s.getD (k / 8) 0).toNat.testBit (k % 8)

/-- Set bit `k` of byte `k / 8`; a string that has no such byte is left
alone. -/
def setBit (s : List UInt8) (k : Nat) : List UInt8 :=
  s.modify (k / 8) fun b => b ||| UInt8.ofNat (2 ^ (k % 8))

@[simp] theorem length_setBit (s : List UInt8) (k : Nat) :
    (setBit s k).length = s.length := by
  simp [setBit]

theorem bitAt_replicate_zero (n k : Nat) :
    bitAt (List.replicate n 0) k = false := by
  rw [bitAt, List.getD_eq_getElem?_getD, List.getElem?_replicate]
  split <;> simp

theorem bitAt_past_end {s : List UInt8} {k : Nat} (h : s.length ≤ k / 8) :
    bitAt s k = false := by
  rw [bitAt, List.getD_eq_default _ _ h]
  simp

private theorem testBit_or_pow (b : UInt8) {i j : Nat} (hi : i < 8) :
    (b ||| UInt8.ofNat (2 ^ i)).toNat.testBit j
      = (b.toNat.testBit j || decide (i = j)) := by
  have hpow : 2 ^ i < 2 ^ 8 := Nat.pow_lt_pow_right (by omega) hi
  rw [UInt8.toNat_or, Nat.testBit_or, UInt8.toNat_ofNat',
    Nat.mod_eq_of_lt hpow, Nat.testBit_two_pow]

/-- Setting a bit the string has room for sets that bit and no
other. -/
theorem bitAt_setBit {s : List UInt8} {k : Nat} (hk : k / 8 < s.length)
    (j : Nat) : bitAt (setBit s k) j = (bitAt s j || decide (k = j)) := by
  by_cases hbyte : k / 8 = j / 8
  · have hj : j / 8 < s.length := by omega
    have hget : (setBit s k).getD (j / 8) 0
        = s[j / 8] ||| UInt8.ofNat (2 ^ (k % 8)) := by
      rw [List.getD_eq_getElem _ _ (by rwa [length_setBit])]
      simp [setBit, hbyte]
    have hiff : (k % 8 = j % 8) ↔ k = j := by omega
    rw [bitAt, bitAt, hget, testBit_or_pow _ (by omega),
      List.getD_eq_getElem _ _ hj, decide_eq_decide.2 hiff]
  · have hne : k ≠ j := fun h => hbyte (by rw [h])
    have hget : (setBit s k).getD (j / 8) 0 = s.getD (j / 8) 0 := by
      simp [List.getD_eq_getElem?_getD, setBit, hbyte]
    rw [bitAt, bitAt, hget]
    simp [hne]

/-- Setting a bit the string has no room for leaves it as it is. -/
theorem setBit_past_end {s : List UInt8} {k : Nat} (h : s.length ≤ k / 8) :
    setBit s k = s :=
  List.modify_eq_self h

/-- Setting the bits of a list one after the other sets those of them that
the string has room for. -/
theorem bitAt_foldl_setBit {ks : List Nat} :
    ∀ (s : List UInt8) (j : Nat), bitAt (ks.foldl setBit s) j = true
      ↔ bitAt s j = true ∨ j ∈ ks ∧ j / 8 < s.length := by
  induction ks with
  | nil => simp
  | cons k ks ih =>
      intro s j
      rw [List.foldl_cons, ih, length_setBit, List.mem_cons]
      by_cases hk : k / 8 < s.length
      · rw [bitAt_setBit hk, Bool.or_eq_true, decide_eq_true_eq, or_assoc]
        refine or_congr_right ⟨?_, ?_⟩
        · rintro (rfl | ⟨hj, hroom⟩)
          · exact ⟨.inl rfl, hk⟩
          · exact ⟨.inr hj, hroom⟩
        · rintro ⟨rfl | hj, hroom⟩
          · exact .inl rfl
          · exact .inr ⟨hj, hroom⟩
      · rw [setBit_past_end (by omega)]
        refine or_congr_right (and_congr_left fun hroom => ?_)
        exact ⟨.inr, fun h => h.resolve_left fun hj => hk (hj ▸ hroom)⟩

end Bitmask

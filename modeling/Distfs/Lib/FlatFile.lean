/-
A flat byte file with a cursor, as the abstract meaning of a writer that
works in blocks.

A file knows for each address the last byte written there, or that none
was. `put` writes at the cursor and moves it behind what was written;
`seek` moves it anywhere.
-/
import Mathlib.Data.List.Basic

/-- A byte file with a cursor. -/
structure FlatFile where
  bytes : Nat → Option UInt8
  cursor : Nat

namespace FlatFile

/-- Nothing written, cursor at the start. -/
def empty : FlatFile := { bytes := fun _ => none, cursor := 0 }

/-- Move the cursor. -/
def seek (f : FlatFile) (a : Nat) : FlatFile := { f with cursor := a }

/-- Write at the cursor, and move it behind. -/
def put (f : FlatFile) (bs : List UInt8) : FlatFile :=
  { bytes := fun a =>
      if f.cursor ≤ a ∧ a < f.cursor + bs.length then bs[a - f.cursor]?
      else f.bytes a
    cursor := f.cursor + bs.length }

/-- The bytes `bs` stand at `a`. -/
def Holds (f : FlatFile) (a : Nat) (bs : List UInt8) : Prop :=
  ∀ i, i < bs.length → f.bytes (a + i) = bs[i]?

/-- Every address from `lo` up to `hi` has been written. -/
def Filled (f : FlatFile) (lo hi : Nat) : Prop :=
  ∀ a, lo ≤ a → a < hi → (f.bytes a).isSome

@[simp] theorem cursor_seek (f : FlatFile) (a : Nat) :
    (f.seek a).cursor = a := rfl

@[simp] theorem bytes_seek (f : FlatFile) (a : Nat) :
    (f.seek a).bytes = f.bytes := rfl

@[simp] theorem cursor_put (f : FlatFile) (bs : List UInt8) :
    (f.put bs).cursor = f.cursor + bs.length := rfl

theorem bytes_put_outside {f : FlatFile} {bs : List UInt8} {a : Nat}
    (h : a < f.cursor ∨ f.cursor + bs.length ≤ a) :
    (f.put bs).bytes a = f.bytes a :=
  if_neg (by omega)

theorem bytes_put_inside {f : FlatFile} {bs : List UInt8} {a : Nat}
    (hlo : f.cursor ≤ a) (hhi : a < f.cursor + bs.length) :
    (f.put bs).bytes a = bs[a - f.cursor]? :=
  if_pos ⟨hlo, hhi⟩

@[simp] theorem put_nil (f : FlatFile) : f.put [] = f := by
  unfold put
  congr 1
  funext a
  rw [if_neg]
  simp only [List.length_nil]
  omega

/-- Writing in two parts is writing the whole. -/
theorem put_append (f : FlatFile) (xs ys : List UInt8) :
    f.put (xs ++ ys) = (f.put xs).put ys := by
  unfold put
  congr 1
  · funext a
    simp only [List.length_append]
    by_cases hy : f.cursor + xs.length ≤ a
        ∧ a < f.cursor + xs.length + ys.length
    · rw [if_pos hy, if_pos (by omega), List.getElem?_append_right (by omega)]
      congr 1
      omega
    · rw [if_neg hy]
      by_cases hx : f.cursor ≤ a ∧ a < f.cursor + xs.length
      · rw [if_pos hx, if_pos (by omega), List.getElem?_append_left (by omega)]
      · rw [if_neg hx, if_neg (by omega)]
  · rw [List.length_append, Nat.add_assoc]

theorem holds_put (f : FlatFile) (bs : List UInt8) :
    (f.put bs).Holds f.cursor bs := by
  intro i hi
  rw [bytes_put_inside (by omega) (by omega), Nat.add_sub_cancel_left]

/-- What stands elsewhere stays. -/
theorem Holds.put {f : FlatFile} {a : Nat} {bs cs : List UInt8}
    (h : f.Holds a bs)
    (hout : a + bs.length ≤ f.cursor ∨ f.cursor + cs.length ≤ a) :
    (f.put cs).Holds a bs := by
  intro i hi
  rw [bytes_put_outside (by omega)]
  exact h i hi

theorem isSome_bytes_put {f : FlatFile} {bs : List UInt8} {a : Nat}
    (h : (f.cursor ≤ a ∧ a < f.cursor + bs.length) ∨ (f.bytes a).isSome) :
    ((f.put bs).bytes a).isSome := by
  by_cases hin : f.cursor ≤ a ∧ a < f.cursor + bs.length
  · rw [bytes_put_inside hin.1 hin.2,
      List.getElem?_eq_getElem (by omega : a - f.cursor < bs.length)]
    rfl
  · rw [bytes_put_outside (by omega)]
    exact h.resolve_left hin

/-- What is written behind a filled part extends it. -/
theorem Filled.put {f : FlatFile} {lo : Nat} {bs : List UInt8}
    (h : f.Filled lo f.cursor) :
    (f.put bs).Filled lo (f.cursor + bs.length) := by
  intro a hlo hhi
  apply isSome_bytes_put
  by_cases ha : a < f.cursor
  · exact .inr (h a hlo ha)
  · exact .inl ⟨by omega, hhi⟩

end FlatFile

/-
Bounded first-in first-out sets.

The content is a list without repetitions, oldest first. `enter` appends
an element that is not there and drops the oldest ones while there is no
room. Nothing here knows how a program finds its elements.

With the log of all entries, oldest first, the content of a set that
started empty is the end of the log (`enter_suffix`), and what stands
before is older (`pairwise_age`).
-/
import Mathlib.Data.List.Nodup

namespace Fifo

variable {α : Type} [DecidableEq α]

/-- The content after `x` came, with room for `size` elements. -/
def enter (size : Nat) (l : List α) (x : α) : List α :=
  if x ∈ l then l else (l ++ [x]).drop (l.length + 1 - size)

/-- How many entries there were after the last one of `x`. -/
def age (log : List α) (x : α) : Nat := log.reverse.idxOf x

variable {size : Nat} {l log : List α} {x : α}

theorem enter_of_mem (h : x ∈ l) : enter size l x = l := if_pos h

theorem enter_of_notMem (h : x ∉ l) :
    enter size l x = (l ++ [x]).drop (l.length + 1 - size) := if_neg h

/-- There is never more than there is room for. -/
theorem length_enter_le (h : l.length ≤ size) :
    (enter size l x).length ≤ size := by
  unfold enter
  split
  · exact h
  · rw [List.length_drop, List.length_append, List.length_singleton]
    omega

/-- The content is the end of the log. -/
theorem enter_suffix (h : l <:+ log) (hx : x ∉ l) :
    enter size l x <:+ log ++ [x] := by
  rw [enter_of_notMem hx]
  refine (List.drop_suffix _ _).trans ?_
  obtain ⟨before, rfl⟩ := h
  exact ⟨before, (List.append_assoc _ _ _).symm⟩

/-- In the content the older stands before the younger. -/
theorem pairwise_age (h : l <:+ log) (hl : l.Nodup) :
    l.Pairwise fun x y => age log y < age log x := by
  have hpre : l.reverse <+: log.reverse := List.reverse_prefix.2 h
  have hrev : l.reverse.Nodup := List.nodup_reverse.2 hl
  rw [← List.pairwise_reverse]
  rw [List.pairwise_iff_getElem]
  intro i j hi hj hij
  obtain ⟨rest, hrest⟩ := hpre
  have hidx : ∀ k (hk : k < l.reverse.length), age log l.reverse[k] = k := by
    intro k hk
    rw [age, ← hrest, List.idxOf_append_of_mem (List.getElem_mem hk),
      hrev.idxOf_getElem]
  rw [hidx i hi, hidx j hj]
  exact hij

end Fifo

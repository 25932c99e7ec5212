/-
Keeping the largest of what was seen.

`Largest kept seen` says that nothing that was seen and not kept is above
anything kept. Replacing a least kept element by a larger one keeps this
(`Largest.replace`). So whether the next one is larger than the least one
kept can be told from what was seen: it is not reached as often as there
are elements kept (`Largest.lt_iff`).
-/
import Mathlib.Data.List.Perm.Basic
import Mathlib.Order.Lattice

variable {α : Type} [LinearOrder α]

/-- The kept elements are largest among those seen. -/
def Largest (kept seen : List α) : Prop :=
  ∃ dropped, seen.Perm (kept ++ dropped)
    ∧ ∀ d ∈ dropped, ∀ k ∈ kept, d ≤ k

namespace Largest

variable {k x : α} {ks kept seen : List α}

theorem refl (l : List α) : Largest l l :=
  ⟨[], by rw [List.append_nil], fun d hd => by cases hd⟩

theorem perm {kept' : List α} (h : Largest kept seen)
    (hperm : kept'.Perm kept) : Largest kept' seen := by
  obtain ⟨dropped, hseen, hle⟩ := h
  exact ⟨dropped, hseen.trans (hperm.symm.append_right dropped),
    fun d hd k hk => hle d hd k (hperm.mem_iff.1 hk)⟩

/-- The next element is above the least kept one exactly if fewer of
those seen reach it than are kept. -/
theorem lt_iff (h : Largest (k :: ks) seen) (hleast : ∀ y ∈ ks, k ≤ y) :
    k < x ↔ seen.countP (x ≤ ·) < (k :: ks).length := by
  obtain ⟨dropped, hseen, hle⟩ := h
  rw [hseen.countP_eq, List.countP_append]
  constructor
  · intro hlt
    have hdropped : dropped.countP (x ≤ ·) = 0 := by
      refine List.countP_eq_zero.2 fun d hd => ?_
      simpa using lt_of_le_of_lt (hle d hd k List.mem_cons_self) hlt
    have hhead : ¬ x ≤ k := not_le.2 hlt
    rw [hdropped, Nat.add_zero, List.countP_cons_of_neg (by simpa using hhead),
      List.length_cons]
    exact Nat.lt_succ_of_le List.countP_le_length
  · intro hcount
    by_contra hle'
    have hall : (k :: ks).countP (x ≤ ·) = (k :: ks).length := by
      refine List.countP_eq_length.2 fun y hy => ?_
      rcases List.mem_cons.1 hy with rfl | hy
      · simpa using hle'
      · simpa using le_trans (not_lt.1 hle') (hleast y hy)
    omega

/-- A least kept element gives way to a larger one. -/
theorem replace (h : Largest (k :: ks) seen) (hleast : ∀ y ∈ ks, k ≤ y)
    (hlt : k < x) : Largest (ks ++ [x]) (seen ++ [x]) := by
  obtain ⟨dropped, hseen, hle⟩ := h
  refine ⟨k :: dropped, ?_, fun d hd y hy => ?_⟩
  · refine (hseen.append_right [x]).trans ?_
    simp only [List.cons_append, List.append_assoc]
    refine List.Perm.trans (List.perm_middle (a := k)).symm ?_
    refine List.Perm.append_left ks ?_
    refine (List.Perm.cons k (List.perm_append_comm)).trans ?_
    exact List.Perm.swap x k dropped
  · have hky : k ≤ y := by
      rcases List.mem_append.1 hy with hy | hy
      · exact hleast y hy
      · rw [List.mem_singleton.1 hy]
        exact le_of_lt hlt
    rcases List.mem_cons.1 hd with rfl | hd
    · exact hky
    · exact le_trans (hle d hd k List.mem_cons_self) hky

end Largest

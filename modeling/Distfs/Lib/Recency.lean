/-
Recency lists: the abstract content of a least-recently-used index.

A recency list is a duplicate-free list, most recent first. `touch`
moves an element to the front; a list that is full and does not hold
the element gives up its last one first. Nothing here knows how a
program indexes the list.

With the history of all uses, newest first, a list that started empty is
known: it holds the elements used last (`touch_recents`), each as long as
fewer others than there is room for were used since (`mem_take_recents`).
-/
import Mathlib.Data.Finset.Card
import Mathlib.Data.Finset.Dedup
import Mathlib.Data.List.Nodup
import Mathlib.Data.List.Basic
import Mathlib.Data.List.TakeWhile

namespace Recency

variable {α : Type} [DecidableEq α]

/-- The recency list after `x` was used, with room for `size`
elements. -/
def touch (size : Nat) (l : List α) (x : α) : List α :=
  if x ∈ l then x :: l.erase x
  else if size ≤ l.length then x :: l.dropLast
  else x :: l

/-- The element that using `x` pushes out. -/
def evicted (size : Nat) (l : List α) (x : α) : Option α :=
  if x ∈ l then none
  else if size ≤ l.length then l.getLast?
  else none

@[simp] theorem mem_touch_self (size : Nat) (l : List α) (x : α) :
    x ∈ touch size l x := by
  unfold touch
  split
  · exact List.mem_cons_self
  · split <;> exact List.mem_cons_self

/-- The element in use is never the one pushed out. -/
theorem evicted_ne {size : Nat} {l : List α} {x y : α}
    (h : evicted size l x = some y) : y ≠ x := by
  unfold evicted at h
  split at h
  · cases h
  · next hx =>
    split at h
    · rintro rfl
      exact hx (List.mem_of_getLast? h)
    · cases h

theorem evicted_mem {size : Nat} {l : List α} {x y : α}
    (h : evicted size l x = some y) : y ∈ l := by
  unfold evicted at h
  split at h
  · cases h
  · split at h
    · exact List.mem_of_getLast? h
    · cases h

/-- Touching changes membership at the touched and at the evicted
element only. -/
theorem mem_touch {size : Nat} {l : List α} {x y : α} (h : l.Nodup) :
    y ∈ touch size l x ↔ y = x ∨ (y ∈ l ∧ evicted size l x ≠ some y) := by
  unfold touch evicted
  by_cases hx : x ∈ l
  · simp only [hx, if_true]
    rw [List.mem_cons, h.mem_erase_iff]
    by_cases hyx : y = x <;> simp [hyx]
  · simp only [hx, if_false]
    split
    · next hfull =>
      rcases List.eq_nil_or_concat l with rfl | ⟨init, z, rfl⟩
      · simp
      · have hz : z ∉ init := by
          rw [List.concat_eq_append, List.nodup_append] at h
          exact fun hm => h.2.2 z hm z (by simp) rfl
        simp only [List.concat_eq_append, List.dropLast_concat,
          List.mem_cons, List.mem_append, List.getLast?_concat,
          List.not_mem_nil, or_false, ne_eq, Option.some.injEq]
        constructor
        · rintro (h | h)
          · exact Or.inl h
          · exact Or.inr ⟨Or.inl h, fun e => hz (e ▸ h)⟩
        · rintro (h | ⟨h | h, hne⟩)
          · exact Or.inl h
          · exact Or.inr h
          · exact absurd h.symm hne
    · simp [List.mem_cons]

-- ============================================== the history of uses

/-- The elements of a history of uses (newest first), each once, by their
last use. -/
def recents : List α → List α
  | [] => []
  | x :: used => x :: (recents used).erase x

theorem mem_recents {x : α} {used : List α} :
    x ∈ recents used ↔ x ∈ used := by
  induction used with
  | nil => exact Iff.rfl
  | cons y used ih =>
      rw [recents, List.mem_cons, List.mem_cons]
      by_cases hxy : x = y
      · simp [hxy]
      · rw [List.mem_erase_of_ne hxy, ih]

theorem nodup_recents (used : List α) : (recents used).Nodup := by
  induction used with
  | nil => exact List.nodup_nil
  | cons x used ih =>
      rw [recents]
      exact List.nodup_cons.2 ⟨ih.not_mem_erase, ih.erase x⟩

/-- A history without repetitions. -/
theorem recents_of_nodup {used : List α} (h : used.Nodup) :
    recents used = used := by
  induction used with
  | nil => rfl
  | cons x used ih =>
      obtain ⟨hx, hused⟩ := List.nodup_cons.1 h
      rw [recents, ih hused, List.erase_of_not_mem hx]

/-- Taking after an erasure is erasing after taking one more. -/
theorem take_erase (l : List α) :
    ∀ (n : Nat) (x : α), x ∈ l.take n →
      (l.take n).erase x = (l.erase x).take (n - 1) := by
  induction l with
  | nil => intro n x hx; simp at hx
  | cons y l ih =>
      intro n x hx
      cases n with
      | zero => simp at hx
      | succ n =>
          rw [List.take_succ_cons, Nat.add_sub_cancel]
          by_cases hyx : y = x
          · rw [hyx, List.erase_cons_head, List.erase_cons_head]
          · have hx' : x ∈ l.take n := by
              rw [List.take_succ_cons, List.mem_cons] at hx
              exact hx.resolve_left (Ne.symm hyx)
            have hn : n ≠ 0 := by
              rintro rfl
              simp at hx'
            obtain ⟨m, rfl⟩ := Nat.exists_eq_succ_of_ne_zero hn
            rw [List.erase_cons_tail (by simpa using hyx),
              List.erase_cons_tail (by simpa using hyx), ih _ _ hx']
            rfl

theorem take_erase_of_notMem (l : List α) :
    ∀ (n : Nat) (x : α), x ∉ l.take (n + 1) →
      (l.erase x).take n = l.take n := by
  induction l with
  | nil => exact fun _ _ _ => rfl
  | cons y l ih =>
      intro n x hx
      rw [List.take_succ_cons, List.mem_cons, not_or] at hx
      rw [List.erase_cons_tail (by simpa using Ne.symm hx.1)]
      cases n with
      | zero => rfl
      | succ n => rw [List.take_succ_cons, List.take_succ_cons, ih n x hx.2]

/-- A recency list with room for `size` elements that started empty holds
the `size` elements used last. -/
theorem touch_recents {size : Nat} (hsize : 0 < size) (used : List α)
    (x : α) :
    touch size ((recents used).take size) x
      = (recents (x :: used)).take size := by
  obtain ⟨n, rfl⟩ := Nat.exists_eq_succ_of_ne_zero (Nat.ne_of_gt hsize)
  rw [recents, List.take_succ_cons, touch]
  split
  · next hx =>
    rw [take_erase _ _ _ hx]
    rfl
  · next hx =>
    rw [take_erase_of_notMem _ n x hx]
    split
    · next hfull =>
      rw [List.dropLast_eq_take, List.take_take, List.length_take]
      rw [List.length_take] at hfull
      congr 2
      omega
    · next hroom =>
      rw [List.length_take] at hroom
      rw [List.take_of_length_le (by omega), List.take_of_length_le (by omega)]

/-- Elements come in the order of their last use. -/
theorem pairwise_recents (used : List α) :
    (recents used).Pairwise fun x y => used.idxOf x < used.idxOf y := by
  induction used with
  | nil => exact List.Pairwise.nil
  | cons x used ih =>
      rw [recents]
      refine List.pairwise_cons.2 ⟨fun y hy => ?_, ?_⟩
      · have hyx : y ≠ x := by
          rintro rfl
          exact (nodup_recents used).not_mem_erase hy
        rw [List.idxOf_cons_self, List.idxOf_cons_ne _ (Ne.symm hyx)]
        exact Nat.succ_pos _
      · refine (ih.sublist List.erase_sublist).imp_of_mem ?_
        intro y z hy hz hlt
        have hne : ∀ w ∈ (recents used).erase x, x ≠ w := by
          rintro w hw rfl
          exact (nodup_recents used).not_mem_erase hw
        rw [List.idxOf_cons_ne _ (hne y hy), List.idxOf_cons_ne _ (hne z hz)]
        exact Nat.succ_lt_succ hlt

/-- What is pushed out is what was used the longest ago. -/
theorem evicted_oldest {size : Nat} {used : List α} {x y : α}
    (h : evicted size ((recents used).take size) x = some y) {z : α}
    (hz : z ∈ (recents used).take size) (hzy : z ≠ y) :
    used.idxOf z < used.idxOf y := by
  have hlast : ((recents used).take size).getLast? = some y := by
    unfold evicted at h
    split at h
    · cases h
    · split at h
      · exact h
      · cases h
  obtain ⟨init, hinit⟩ := List.getLast?_eq_some_iff.1 hlast
  have hpair := (pairwise_recents used).sublist (List.take_sublist size _)
  rw [hinit] at hpair hz
  rw [List.mem_append, List.mem_singleton] at hz
  exact (List.pairwise_append.1 hpair).2.2 z (hz.resolve_right hzy) y
    (List.mem_singleton.2 rfl)

/-- What is pushed out, by the history: when a new element comes and
there is no room, the one used the longest ago. -/
theorem evicted_eq_some_iff {size : Nat} {used : List α} {x y : α} :
    evicted size ((recents used).take size) x = some y
      ↔ x ∉ (recents used).take size
        ∧ size ≤ ((recents used).take size).length
        ∧ y ∈ (recents used).take size
        ∧ ∀ z ∈ (recents used).take size, z ≠ y →
          used.idxOf z < used.idxOf y := by
  constructor
  · intro h
    have hcases := h
    unfold evicted at hcases
    split at hcases
    · cases hcases
    · next hx =>
      split at hcases
      · next hfull =>
        exact ⟨hx, hfull, evicted_mem h, fun z hz hzy =>
          evicted_oldest h hz hzy⟩
      · cases hcases
  · rintro ⟨hx, hfull, hy, holdest⟩
    have hlast : evicted size ((recents used).take size) x
        = ((recents used).take size).getLast? := by
      rw [evicted, if_neg hx, if_pos hfull]
    cases hw : ((recents used).take size).getLast? with
    | none =>
        rw [List.getLast?_eq_none_iff.1 hw] at hy
        cases hy
    | some w =>
        rw [hw] at hlast
        rw [hlast]
        by_contra hne
        have hyw : y ≠ w := fun h => hne (congrArg some h.symm)
        have hlt := evicted_oldest hlast hy hyw
        have hgt := holdest w (evicted_mem hlast) (Ne.symm hyw)
        exact Nat.lt_asymm hlt hgt

-- ===================================== how long ago something was used

/-- How many other elements were used since the last use of `x`. -/
def since (used : List α) (x : α) : Nat :=
  (used.takeWhile (· ≠ x)).toFinset.card

theorem takeWhile_erase {x y : α} (hyx : y ≠ x) (l : List α) :
    (l.erase y).takeWhile (· ≠ x) = (l.takeWhile (· ≠ x)).erase y := by
  induction l with
  | nil => rfl
  | cons z l ih =>
      by_cases hzy : z = y
      · rw [hzy, List.erase_cons_head, List.takeWhile_cons_of_pos (by simpa),
          List.erase_cons_head]
      · rw [List.erase_cons_tail (by simpa using hzy)]
        by_cases hzx : z = x
        · rw [List.takeWhile_cons_of_neg (by simpa),
            List.takeWhile_cons_of_neg (by simpa), List.erase_nil]
        · rw [List.takeWhile_cons_of_pos (by simpa),
            List.takeWhile_cons_of_pos (by simpa),
            List.erase_cons_tail (by simpa using hzy), ih]

theorem toFinset_takeWhile_recents (used : List α) (x : α) :
    ((recents used).takeWhile (· ≠ x)).toFinset
      = (used.takeWhile (· ≠ x)).toFinset := by
  induction used with
  | nil => rfl
  | cons y used ih =>
      rw [recents]
      by_cases hyx : y = x
      · rw [List.takeWhile_cons_of_neg (by simpa),
          List.takeWhile_cons_of_neg (by simpa)]
      · rw [List.takeWhile_cons_of_pos (by simpa),
          List.takeWhile_cons_of_pos (by simpa), takeWhile_erase hyx,
          List.toFinset_cons, List.toFinset_cons, ← ih]
        ext z
        rw [Finset.mem_insert, Finset.mem_insert, List.mem_toFinset,
          List.mem_toFinset]
        by_cases hzy : z = y
        · simp [hzy]
        · rw [List.mem_erase_of_ne hzy]

theorem idxOf_eq_length_takeWhile (l : List α) (x : α) :
    l.idxOf x = (l.takeWhile (· ≠ x)).length := by
  induction l with
  | nil => rfl
  | cons y l ih =>
      by_cases hyx : y = x
      · rw [hyx, List.idxOf_cons_self, List.takeWhile_cons_of_neg (by simp)]
        rfl
      · rw [List.idxOf_cons_ne _ hyx, ih,
          List.takeWhile_cons_of_pos (by simpa)]
        rfl

/-- Since the last use of one of the elements used last, only others of
these were used. -/
theorem since_append_lt {l : List α} {x : α} (hx : x ∈ l) (k : List α) :
    since (l ++ k) x < l.toFinset.card := by
  have hsub : ((l ++ k).takeWhile (· ≠ x)).toFinset
      ⊆ l.toFinset.erase x := by
    intro y hy
    rw [List.mem_toFinset] at hy
    have hyx : y ≠ x := by simpa using List.mem_takeWhile_imp hy
    rw [Finset.mem_erase, List.mem_toFinset]
    refine ⟨hyx, ?_⟩
    rw [List.takeWhile_append, if_neg] at hy
    · exact (List.takeWhile_sublist _).subset hy
    · intro hlen
      have hall := (List.takeWhile_prefix (· ≠ x)).eq_of_length hlen
      rw [← hall] at hx
      simpa using List.mem_takeWhile_imp hx
  refine Nat.lt_of_le_of_lt (Finset.card_le_card hsub) ?_
  exact Finset.card_erase_lt_of_mem (List.mem_toFinset.2 hx)

/-- What is still in a recency list: what was used, with fewer other
elements since then than the list has room for. -/
theorem mem_take_recents {size : Nat} {used : List α} {x : α} :
    x ∈ (recents used).take size ↔ x ∈ used ∧ since used x < size := by
  have hidx : (recents used).idxOf x = since used x := by
    rw [idxOf_eq_length_takeWhile, since, ← toFinset_takeWhile_recents,
      List.toFinset_card_of_nodup]
    exact (nodup_recents used).sublist (List.takeWhile_sublist _)
  rw [← hidx, ← @mem_recents _ _ x used]
  constructor
  · intro hx
    have hmem := List.mem_of_mem_take hx
    exact ⟨hmem, (List.mem_take_iff_idxOf_lt hmem).1 hx⟩
  · rintro ⟨hmem, hlt⟩
    exact (List.mem_take_iff_idxOf_lt hmem).2 hlt

end Recency

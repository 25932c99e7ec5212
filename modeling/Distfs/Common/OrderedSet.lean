/-
The bounded first-in first-out set of peer candidates
(`common/ordered_set.{h,cc}`).

The class keeps the strings in an unordered set and, in a queue, the
iterators to them in order of insertion. An iterator is modelled by the
string it points at. `pop` on an empty queue is undefined behaviour and
`none`; `push` only pops a set it has just added to, so it never is.
-/
import Distfs.Common.Basic
import Distfs.Lib.Fifo
import Mathlib.Data.Finset.Card
import Mathlib.Data.List.Nodup

namespace Distfs

/-- `OrderedSet`. -/
structure OrderedSet where
  data : Finset Bytes
  iterators : List Bytes
  maxSize : UInt32
  deriving DecidableEq

namespace OrderedSet

/-- The constructor. -/
def new (maxSize : UInt32) : OrderedSet :=
  { data := ∅, iterators := [], maxSize := maxSize }

/-- `size`: a `size_t` returned as a `uint32_t`. -/
def size (s : OrderedSet) : Nat := uint32 s.data.card

/-- `pop`. -/
def pop (s : OrderedSet) : Option (Bytes × OrderedSet) :=
  match s.iterators with
  | [] => none
  | str :: iterators =>
      some (str, { s with data := s.data.erase str, iterators := iterators })

/-- The loop of `push`: pop while there are more than `max_size`. -/
def shrink (s : OrderedSet) : Nat → OrderedSet
  | 0 => s
  | fuel + 1 =>
      if s.maxSize.toNat < s.data.card then
        match s.pop with
        | none => s
        | some (_, s') => shrink s' fuel
      else s

/-- `push`: whether the string was new, and the set after it. -/
def push (s : OrderedSet) (str : Bytes) : Bool × OrderedSet :=
  if str ∈ s.data then (false, s)
  else
    let s' : OrderedSet := { s with
      data := insert str s.data
      iterators := s.iterators ++ [str] }
    (true, s'.shrink s'.data.card)

/-- The queue lists the strings of the set, each once. -/
structure Coherent (s : OrderedSet) : Prop where
  nodup : s.iterators.Nodup
  mem_iff : ∀ str, str ∈ s.iterators ↔ str ∈ s.data

theorem new_coherent (maxSize : UInt32) : (new maxSize).Coherent :=
  ⟨List.nodup_nil, by simp [new]⟩

theorem Coherent.length {s : OrderedSet} (h : s.Coherent) :
    s.iterators.length = s.data.card := by
  have hdata : s.data = s.iterators.toFinset := by
    ext str
    rw [List.mem_toFinset, h.mem_iff]
  rw [hdata, List.toFinset_card_of_nodup h.nodup]

/-- A coherent set that is not empty has a front, and what is left
without it is coherent. -/
theorem pop_spec {s : OrderedSet} (h : s.Coherent) (hne : 0 < s.data.card) :
    ∃ str s', s.pop = some (str, s') ∧ s'.Coherent ∧ str ∈ s.data
      ∧ s'.data = s.data.erase str ∧ s'.maxSize = s.maxSize := by
  cases hit : s.iterators with
  | nil =>
      have hlen := h.length
      rw [hit, List.length_nil] at hlen
      omega
  | cons str iterators =>
      refine ⟨str,
        { s with data := s.data.erase str, iterators := iterators },
        by rw [pop, hit], ⟨?_, ?_⟩, ?_, rfl, rfl⟩
      · have hnodup := h.nodup
        rw [hit] at hnodup
        exact (List.nodup_cons.1 hnodup).2
      · intro x
        have hnodup := h.nodup
        have hmem := h.mem_iff x
        rw [hit] at hnodup hmem
        rw [Finset.mem_erase, ← hmem, List.mem_cons]
        constructor
        · intro hx
          refine ⟨?_, Or.inr hx⟩
          intro heq
          exact (List.nodup_cons.1 hnodup).1 (heq ▸ hx)
        · intro hx
          exact hx.2.resolve_left hx.1
      · rw [← h.mem_iff, hit]
        exact List.mem_cons_self

/-- Shrinking only drops strings, and with a step for each string it
ends within the bound. -/
theorem shrink_spec (fuel : Nat) :
    ∀ s : OrderedSet, s.Coherent → s.data.card ≤ fuel →
      (s.shrink fuel).Coherent ∧ (s.shrink fuel).data ⊆ s.data
        ∧ (s.shrink fuel).maxSize = s.maxSize
        ∧ (s.shrink fuel).data.card ≤ s.maxSize.toNat := by
  induction fuel with
  | zero =>
      intro s h hfuel
      exact ⟨h, Finset.Subset.refl _, rfl, by rw [shrink]; omega⟩
  | succ fuel ih =>
      intro s h hfuel
      rw [shrink]
      split
      · next hlt =>
        obtain ⟨str, s', hpop, hcoh, hmem, hdata, hmax⟩ :=
          pop_spec h (by omega)
        have hcard : s'.data.card = s.data.card - 1 := by
          rw [hdata, Finset.card_erase_of_mem hmem]
        simp only [hpop]
        obtain ⟨hcoh', hsub, hmax', hle⟩ := ih s' hcoh (by omega)
        refine ⟨hcoh', ?_, hmax'.trans hmax, by rw [← hmax]; exact hle⟩
        rw [hdata] at hsub
        exact hsub.trans (Finset.erase_subset _ _)
      · next hge => exact ⟨h, Finset.Subset.refl _, rfl, by omega⟩

/-- `push` keeps the set coherent and adds nothing but the string. -/
theorem push_spec {s : OrderedSet} (h : s.Coherent) (str : Bytes) :
    (s.push str).2.Coherent
      ∧ (∀ x ∈ (s.push str).2.data, x = str ∨ x ∈ s.data)
      ∧ (s.push str).2.maxSize = s.maxSize := by
  rw [push]
  split
  · exact ⟨h, fun x hx => Or.inr hx, rfl⟩
  · next hnew =>
    have hcoh : Coherent { s with
        data := insert str s.data
        iterators := s.iterators ++ [str] } := by
      refine ⟨?_, ?_⟩
      · rw [List.nodup_append]
        refine ⟨h.nodup, List.nodup_singleton _, ?_⟩
        intro x hx y hy heq
        rw [heq, List.mem_singleton.1 hy, h.mem_iff] at hx
        exact hnew hx
      · intro x
        simp [h.mem_iff, or_comm]
    obtain ⟨hcoh', hsub, hmax, -⟩ := shrink_spec _ _ hcoh (Nat.le_refl _)
    exact ⟨hcoh', fun x hx => Finset.mem_insert.1 (hsub hx), hmax⟩

-- ================================================ first in, first out

/-- The set of the strings of a list, queued in its order. -/
def ofList (maxSize : UInt32) (l : List Bytes) : OrderedSet :=
  { data := l.toFinset, iterators := l, maxSize := maxSize }

theorem pop_ofList {maxSize : UInt32} {str : Bytes} {l : List Bytes}
    (h : (str :: l).Nodup) :
    (ofList maxSize (str :: l)).pop = some (str, ofList maxSize l) := by
  obtain ⟨hstr, -⟩ := List.nodup_cons.1 h
  have herase : (str :: l).toFinset.erase str = l.toFinset := by
    rw [List.toFinset_cons,
      Finset.erase_insert (mt List.mem_toFinset.1 hstr)]
  show some (str, _) = _
  rw [ofList, ofList, herase]

/-- Shrinking drops the strings that came first. -/
theorem shrink_ofList {maxSize : UInt32} (fuel : Nat) :
    ∀ l : List Bytes, l.Nodup → l.length ≤ fuel →
      (ofList maxSize l).shrink fuel
        = ofList maxSize (l.drop (l.length - maxSize.toNat)) := by
  induction fuel with
  | zero =>
      intro l _ hfuel
      rw [List.length_eq_zero_iff.1 (Nat.le_zero.1 hfuel), List.drop_nil]
      rfl
  | succ fuel ih =>
      intro l hl hfuel
      have hcard : (ofList maxSize l).data.card = l.length :=
        List.toFinset_card_of_nodup hl
      rw [shrink, hcard]
      by_cases hfull : maxSize.toNat < l.length
      · rw [ofList, if_pos hfull]
        cases l with
        | nil => exact absurd hfull (Nat.not_lt_zero _)
        | cons str l =>
            rw [List.length_cons] at hfull hfuel ⊢
            have hpop := @pop_ofList maxSize str l hl
            rw [ofList] at hpop
            simp only [hpop]
            rw [ih l (List.nodup_cons.1 hl).2 (by omega),
              show l.length + 1 - maxSize.toNat
                = l.length - maxSize.toNat + 1 by omega, List.drop_succ_cons]
      · rw [ofList, if_neg hfull, Nat.sub_eq_zero_of_le (by omega),
          List.drop_zero]
        rfl

/-- `push` is `Fifo.enter`. -/
theorem push_ofList {maxSize : UInt32} {l : List Bytes} (hl : l.Nodup)
    (str : Bytes) :
    (ofList maxSize l).push str
      = (decide (str ∉ l),
          ofList maxSize (Fifo.enter maxSize.toNat l str)) := by
  have hmem : str ∈ (ofList maxSize l).data ↔ str ∈ l := List.mem_toFinset
  rw [push]
  by_cases hstr : str ∈ l
  · rw [if_pos (hmem.2 hstr), Fifo.enter_of_mem hstr]
    simp [hstr]
  · have hnodup : (l ++ [str]).Nodup :=
      List.nodup_append.2 ⟨hl, List.nodup_singleton _, fun x hx y hy hxy =>
        hstr (List.mem_singleton.1 hy ▸ hxy ▸ hx)⟩
    have hinsert : ({ ofList maxSize l with
        data := insert str (ofList maxSize l).data
        iterators := (ofList maxSize l).iterators ++ [str] } : OrderedSet)
          = ofList maxSize (l ++ [str]) := by
      simp [ofList]
    have hcard : (ofList maxSize (l ++ [str])).data.card = l.length + 1 := by
      rw [ofList, List.toFinset_card_of_nodup hnodup, List.length_append,
        List.length_singleton]
    rw [if_neg (mt hmem.1 hstr), hinsert]
    simp only [hcard]
    rw [shrink_ofList _ _ hnodup (by simp), Fifo.enter_of_notMem hstr]
    simp [hstr]

end OrderedSet

end Distfs

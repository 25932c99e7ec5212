/-
The set of chunks a node advertises, and its wire form
(`network/chunk_availability.{h,cc}`).

`bitmask` sizes a `std::string` from the quotient AND the remainder of
the largest id and then sets one bit a chunk. A write outside the
string is undefined behaviour and is `none` here; whether one happens
is decided by the largest id alone (`bitmask_of_top`).

The only write there can be is of a largest id that is a multiple of
eight, to the null behind the last byte. A program that goes on after it
sends the string without that byte (`sentMask`), which tells all ids but
the largest (`ofBitmask_sentMask`).
-/
import Distfs.Common.Basic
import Distfs.Lib.Bitmask
import Mathlib.Data.Finset.Sort
import Mathlib.Data.Fintype.Basic
import Mathlib.Order.Bounds.Basic

namespace Distfs

/-- `ChunkAvailability`. -/
structure ChunkAvailability where
  chunks : Finset UInt32
  deriving DecidableEq

namespace ChunkAvailability

/-- `operator[]`. -/
def contains (a : ChunkAvailability) (id : UInt32) : Bool :=
  id ∈ a.chunks

/-- `count`: the size, returned as a `uint32_t`. -/
def count (a : ChunkAvailability) : Nat := uint32 a.chunks.card

/-- `operator<`. -/
def less (a b : ChunkAvailability) : Bool := a.count < b.count

/-- The chunks in the order a `std::set` iterates them. -/
def sorted (a : ChunkAvailability) : List UInt32 :=
  a.chunks.sort (· ≤ ·)

/-- `str[x / 8] |= 1 << (x % 8)`, `none` outside the string. -/
def orBit (str : Bytes) (x : UInt32) : Option Bytes :=
  if x.toNat / 8 < str.length then some (Bitmask.setBit str x.toNat)
  else none

/-- `bitmask`. -/
def bitmask (a : ChunkAvailability) : Option Bytes :=
  match a.sorted.getLast? with
  | none => some []
  | some top =>
      a.sorted.foldlM orBit
        (List.replicate (uint32 (top.toNat / 8 + top.toNat % 8)) 0)

/-- The string of `bitmask` as it is sent. What is written to the byte
behind its end, the null that closes it, is not of the string. -/
def sentMask (a : ChunkAvailability) : Bytes :=
  match a.sorted.getLast? with
  | none => []
  | some top =>
      (a.sorted.map UInt32.toNat).foldl Bitmask.setBit
        (List.replicate (uint32 (top.toNat / 8 + top.toNat % 8)) 0)

/-- The constructor from a bitmask: every bit of every byte, lowest
first. -/
def ofBitmask (bitmask : Bytes) : ChunkAvailability :=
  { chunks := ((List.range bitmask.length).flatMap fun i =>
      (List.range 8).filterMap fun j =>
        if (bitmask.getD i 0).toNat.testBit j then
          some (UInt32.ofNat (i * 8 + j))
        else none).toFinset }

-- ==================================================== the encoder

/-- The encoder's loop stays inside the string exactly when every id
has its byte there, and then it sets the bits of the ids. -/
theorem foldlM_orBit (xs : List UInt32) :
    ∀ str : Bytes, xs.foldlM orBit str
      = if xs.all fun x => decide (x.toNat / 8 < str.length) then
          some ((xs.map UInt32.toNat).foldl Bitmask.setBit str)
        else none := by
  induction xs with
  | nil => simp
  | cons x xs ih =>
      intro str
      by_cases hx : x.toNat / 8 < str.length
      · have hstep : orBit str x = some (Bitmask.setBit str x.toNat) :=
          if_pos hx
        rw [List.foldlM_cons, hstep]
        show xs.foldlM orBit (Bitmask.setBit str x.toNat) = _
        rw [ih]
        simp [hx]
      · have hstep : orBit str x = none := if_neg hx
        rw [List.foldlM_cons, hstep, if_neg]
        · rfl
        · intro hall
          rw [List.all_cons, decide_eq_false hx] at hall
          cases hall

theorem mem_sorted {a : ChunkAvailability} {id : UInt32} :
    id ∈ a.sorted ↔ id ∈ a.chunks :=
  Finset.mem_sort _

/-- The last chunk of the iteration is the largest. -/
theorem getLast_sorted {a : ChunkAvailability} {top : UInt32} :
    a.sorted.getLast? = some top
      ↔ top ∈ a.chunks ∧ ∀ x ∈ a.chunks, x ≤ top := by
  have hpw : a.sorted.Pairwise (· ≤ ·) := Finset.pairwise_sort _ _
  constructor
  · intro h
    obtain ⟨init, hinit⟩ := List.getLast?_eq_some_iff.1 h
    refine ⟨mem_sorted.1 (List.mem_of_getLast? h), fun x hx => ?_⟩
    have hx' := mem_sorted.2 hx
    rw [hinit] at hx' hpw
    rcases List.mem_append.1 hx' with hx' | hx'
    · exact (List.pairwise_append.1 hpw).2.2 x hx' top (by simp)
    · rw [List.mem_singleton.1 hx']
      exact UInt32.le_refl _
  · rintro ⟨hmem, hmax⟩
    cases hlast : a.sorted.getLast? with
    | none =>
        rw [List.getLast?_eq_none_iff] at hlast
        have := mem_sorted.2 hmem
        rw [hlast] at this
        cases this
    | some t =>
        obtain ⟨init, hinit⟩ := List.getLast?_eq_some_iff.1 hlast
        have htmem := mem_sorted.1 (List.mem_of_getLast? hlast)
        have hle := hmax t htmem
        have hx' := mem_sorted.2 hmem
        rw [hinit] at hx' hpw
        rcases List.mem_append.1 hx' with hx' | hx'
        · have hge := (List.pairwise_append.1 hpw).2.2 top hx' t (by simp)
          rw [UInt32.le_antisymm hle hge]
        · rw [List.mem_singleton.1 hx']

theorem bitmask_of_empty {a : ChunkAvailability} (h : a.chunks = ∅) :
    a.bitmask = some [] := by
  have hnone : a.sorted.getLast? = none := by
    cases hlast : a.sorted.getLast? with
    | none => rfl
    | some top =>
        have hmem := (getLast_sorted.1 hlast).1
        rw [h] at hmem
        exact absurd hmem (Finset.notMem_empty _)
  simp only [bitmask, hnone]

/-- The largest id decides the size of the string, and with it whether
every id has its byte: with a remainder of zero the string ends just
before the byte of the largest id. -/
theorem bitmask_of_top {a : ChunkAvailability} {top : UInt32}
    (htop : top ∈ a.chunks) (hmax : ∀ x ∈ a.chunks, x ≤ top) :
    a.bitmask = if top.toNat % 8 ≠ 0 then
        some ((a.sorted.map UInt32.toNat).foldl Bitmask.setBit
          (List.replicate (top.toNat / 8 + top.toNat % 8) 0))
      else none := by
  have hlast := getLast_sorted.2 ⟨htop, hmax⟩
  have htoplt : top.toNat < 2 ^ 32 := top.toNat_lt
  have hlen : uint32 (top.toNat / 8 + top.toNat % 8)
      = top.toNat / 8 + top.toNat % 8 := uint32_of_lt (by omega)
  simp only [bitmask, hlast, foldlM_orBit, hlen, List.length_replicate]
  refine if_congr ?_ rfl rfl
  rw [List.all_eq_true]
  constructor
  · intro h
    have hlt := of_decide_eq_true (h top (mem_sorted.2 htop))
    omega
  · intro h x hx
    have hle : x.toNat ≤ top.toNat :=
      UInt32.le_iff_toNat_le.1 (hmax x (mem_sorted.1 hx))
    apply decide_eq_true
    omega

/-- A non-empty set has a largest id. -/
theorem exists_top {S : Finset UInt32} (h : S ≠ ∅) :
    ∃ top ∈ S, ∀ x ∈ S, x ≤ top := by
  obtain ⟨top, htop, hmax⟩ :=
    S.exists_max_image UInt32.toNat (Finset.nonempty_iff_ne_empty.2 h)
  exact ⟨top, htop, fun x hx => UInt32.le_iff_toNat_le.2 (hmax x hx)⟩

/-- The bits of an encoded set are its ids. -/
theorem bitAt_bitmask {a : ChunkAvailability} {str : Bytes}
    (h : a.bitmask = some str) (k : Nat) :
    Bitmask.bitAt str k = true ↔ ∃ id ∈ a.chunks, id.toNat = k := by
  by_cases hempty : a.chunks = ∅
  · rw [bitmask_of_empty hempty, Option.some.injEq] at h
    rw [← h, hempty, Bitmask.bitAt_past_end (Nat.zero_le _)]
    simp
  · obtain ⟨top, htop, hmax⟩ := exists_top hempty
    rw [bitmask_of_top htop hmax] at h
    split at h
    case isFalse => cases h
    case isTrue hrem =>
      injection h with hstr
      have hroom : ∀ x ∈ a.chunks, x.toNat / 8 < (List.replicate
          (top.toNat / 8 + top.toNat % 8) (0 : UInt8)).length := by
        intro x hx
        have hle := UInt32.le_iff_toNat_le.1 (hmax x hx)
        rw [List.length_replicate]
        omega
      rw [← hstr, Bitmask.bitAt_foldl_setBit, Bitmask.bitAt_replicate_zero,
        List.mem_map]
      simp only [Bool.false_eq_true, false_or, mem_sorted]
      constructor
      · exact And.left
      · rintro ⟨x, hx, rfl⟩
        exact ⟨⟨x, hx, rfl⟩, hroom x hx⟩

-- ==================================================== the decoder

theorem mem_ofBitmask {str : Bytes} {id : UInt32} :
    id ∈ (ofBitmask str).chunks
      ↔ ∃ k, Bitmask.bitAt str k = true ∧ UInt32.ofNat k = id := by
  simp only [ofBitmask, List.mem_toFinset, List.mem_flatMap,
    List.mem_range, List.mem_filterMap, Option.ite_none_right_eq_some,
    Option.some.injEq]
  constructor
  · rintro ⟨i, hi, j, hj, hbit, hid⟩
    refine ⟨i * 8 + j, ?_, hid⟩
    rw [Bitmask.bitAt, show (i * 8 + j) / 8 = i by omega,
      show (i * 8 + j) % 8 = j by omega]
    exact hbit
  · rintro ⟨k, hbit, hid⟩
    have hin : k / 8 < str.length := by
      by_contra hout
      rw [Bitmask.bitAt_past_end (by omega)] at hbit
      cases hbit
    refine ⟨k / 8, hin, k % 8, by omega, hbit, ?_⟩
    rw [show k / 8 * 8 + k % 8 = k by omega]
    exact hid

-- ============================================== what a message tells

/-- The ids that the message of a node with the blocks `S` tells: all but
the largest, if that is a multiple of eight. -/
def told (S : Finset UInt32) : Finset UInt32 :=
  S.filter fun id => ¬ (id.toNat % 8 = 0 ∧ S.filter (id < ·) = ∅)

/-- As long as the string is written to only inside, it is what is sent. -/
theorem sentMask_of_bitmask {a : ChunkAvailability} {str : Bytes}
    (h : a.bitmask = some str) : a.sentMask = str := by
  cases hlast : a.sorted.getLast? with
  | none =>
      simp only [bitmask, hlast, Option.some.injEq] at h
      simp only [sentMask, hlast, h]
  | some top =>
      simp only [bitmask, hlast, foldlM_orBit] at h
      simp only [sentMask, hlast]
      split at h
      · exact Option.some.inj h
      · cases h

/-- The bits of the string that is sent are the ids before its end. -/
theorem bitAt_sentMask {a : ChunkAvailability} {top : UInt32}
    (htop : top ∈ a.chunks) (hmax : ∀ x ∈ a.chunks, x ≤ top) (k : Nat) :
    Bitmask.bitAt a.sentMask k = true ↔ (∃ id ∈ a.chunks, id.toNat = k)
      ∧ k / 8 < top.toNat / 8 + top.toNat % 8 := by
  have htoplt : top.toNat < 2 ^ 32 := top.toNat_lt
  have hlast := getLast_sorted.2 ⟨htop, hmax⟩
  simp only [sentMask, hlast, Bitmask.bitAt_foldl_setBit,
    Bitmask.bitAt_replicate_zero, List.length_replicate, List.mem_map,
    mem_sorted, Bool.false_eq_true, false_or]
  rw [uint32_of_lt (by omega)]

/-- What is decoded of it. -/
theorem ofBitmask_sentMask (a : ChunkAvailability) :
    (ofBitmask a.sentMask).chunks = told a.chunks := by
  by_cases hempty : a.chunks = ∅
  · rw [sentMask_of_bitmask (bitmask_of_empty hempty), hempty]
    rfl
  obtain ⟨top, htop, hmax⟩ := exists_top hempty
  have hbyte : ∀ id ∈ a.chunks,
      (id.toNat / 8 < top.toNat / 8 + top.toNat % 8
        ↔ ¬ (id.toNat % 8 = 0 ∧ a.chunks.filter (id < ·) = ∅)) := by
    intro id hid
    by_cases heq : id = top
    · have hnone : a.chunks.filter (top < ·) = ∅ :=
        Finset.filter_eq_empty_iff.2 fun x hx => UInt32.not_lt.2 (hmax x hx)
      rw [heq, and_iff_left hnone]
      omega
    · have hle := UInt32.le_iff_toNat_le.1 (hmax id hid)
      have hne : id.toNat ≠ top.toNat := fun h => heq (UInt32.toNat.inj h)
      refine iff_of_true (by omega) fun hall => ?_
      exact Finset.filter_eq_empty_iff.1 hall.2 htop
        (UInt32.lt_iff_toNat_lt.2 (by omega))
  ext id
  rw [mem_ofBitmask, told, Finset.mem_filter]
  constructor
  · rintro ⟨k, hbit, rfl⟩
    obtain ⟨⟨x, hx, rfl⟩, hlt⟩ := (bitAt_sentMask htop hmax k).1 hbit
    rw [UInt32.ofNat_toNat]
    exact ⟨hx, (hbyte x hx).1 hlt⟩
  · rintro ⟨hid, htold⟩
    exact ⟨id.toNat, (bitAt_sentMask htop hmax _).2
      ⟨⟨id, hid, rfl⟩, (hbyte id hid).2 htold⟩, UInt32.ofNat_toNat⟩

-- ================================================== the round trip

/-- A set of ids survives the wire: `bitmask` writes only inside the
string it sized, and its decoding has the same ids and their number. -/
def RoundTrips (S : Finset UInt32) : Prop :=
  ∃ str, bitmask { chunks := S } = some str
    ∧ (∀ id, (ofBitmask str).contains id = decide (id ∈ S))
    ∧ (ofBitmask str).count = S.card

/-- Decoding an encoded set gives the set back. -/
theorem ofBitmask_bitmask {a : ChunkAvailability} {str : Bytes}
    (h : a.bitmask = some str) : (ofBitmask str).chunks = a.chunks := by
  ext id
  rw [mem_ofBitmask]
  constructor
  · rintro ⟨k, hbit, rfl⟩
    obtain ⟨x, hx, rfl⟩ := (bitAt_bitmask h k).1 hbit
    rwa [UInt32.ofNat_toNat]
  · intro hid
    exact ⟨id.toNat, (bitAt_bitmask h _).2 ⟨id, hid, rfl⟩,
      UInt32.ofNat_toNat⟩

/-- The round trip holds exactly for the sets whose largest id is not a
multiple of eight, and whose number of ids fits the `uint32_t` that
`count` returns. -/
theorem roundTrips_iff (S : Finset UInt32) :
    RoundTrips S ↔ (∀ top ∈ S, (∀ x ∈ S, x ≤ top) → top.toNat % 8 ≠ 0)
      ∧ S.card < 2 ^ 32 := by
  constructor
  · rintro ⟨str, hstr, -, hcount⟩
    refine ⟨fun top htop hmax hrem => ?_, ?_⟩
    · rw [bitmask_of_top htop hmax, if_neg (by simpa using hrem)] at hstr
      cases hstr
    · rw [← hcount]
      exact Nat.mod_lt _ (by decide)
  · rintro ⟨htops, hcard⟩
    have hsome : ∃ str, bitmask { chunks := S } = some str := by
      by_cases hempty : S = ∅
      · exact ⟨[], bitmask_of_empty hempty⟩
      · obtain ⟨top, htop, hmax⟩ := exists_top hempty
        have heq := bitmask_of_top (a := { chunks := S }) htop hmax
        rw [if_pos (htops top htop hmax)] at heq
        exact ⟨_, heq⟩
    obtain ⟨str, hstr⟩ := hsome
    refine ⟨str, hstr, fun id => ?_, ?_⟩
    · rw [contains, ofBitmask_bitmask hstr]
    · rw [count, ofBitmask_bitmask hstr]
      exact uint32_of_lt hcard

/-- The store that holds chunk 8 alone: the string has one byte, the
write goes to the second. -/
theorem not_roundTrips_eight : ¬ RoundTrips {8} := by
  rintro ⟨str, hstr, -⟩
  have hnone := bitmask_of_top (a := { chunks := {8} })
    (Finset.mem_singleton_self 8)
    fun x hx => by rw [Finset.mem_singleton.1 hx]; exact UInt32.le_refl _
  rw [if_neg (by decide), hstr] at hnone
  cases hnone

end ChunkAvailability

end Distfs

/-
`MetaFileSystem::find_entity` by itself: on any array of entries, of a
directory or of attributes, with any other records around it.

What it returns is `findEntity_spec`. Here is also what it looks at: the
bounds of the search cross at either end of the array, and yet no entry
outside of it is read (`findEntity_exact`).
-/
import Distfs.Meta.Lookup

namespace Distfs

namespace MetaFileSystem

/-- The entries `find_entity` reads, in this order. -/
def entriesRead (m : Mem) (name : Bytes) (ents entsSize : Nat) : List Int :=
  if entsSize = 0 then []
  else
    (BinarySearch.findLogged
      (fun i => m.strcmp (Entry.nameOffset m ents i) name) intMax 0
      (toInt32 (entsSize - 1))).2

/-- `find_entity` returns what it has read. -/
theorem findEntity_eq_logged (m : Mem) (name : Bytes) (ents entsSize : Nat) :
    findEntity m name ents entsSize
      = if entsSize = 0 then some 0
        else
          match (BinarySearch.findLogged
              (fun i => m.strcmp (Entry.nameOffset m ents i) name) intMax 0
              (toInt32 (entsSize - 1))).1 with
          | none => none
          | some none => some 0
          | some (some i) => some (Entry.dataOffset m ents i) := by
  rw [BinarySearch.findLogged_fst]
  rfl

theorem entriesRead_lt {m : Mem} {name : Bytes} {ents n : Nat}
    (hn : n ≤ 2 ^ 31) :
    ∀ i ∈ entriesRead m name ents n, 0 ≤ i ∧ i < (n : Int) := by
  intro i hi
  rw [entriesRead] at hi
  by_cases hzero : n = 0
  · rw [if_pos hzero] at hi
    cases hi
  · rw [if_neg hzero, toInt32_pred (by omega) hn] at hi
    exact BinarySearch.find_probes (n := n) (Int.le_refl 0) (by omega)
      (by omega) i hi

/-- In an array of names in strictly ascending order, none of whose
`data_offset`s is zero, `find_entity` reads entries of the array only, and
returns the `data_offset` of the entry with the name, and zero if there is
none. It returns zero for an empty array. -/
theorem findEntity_exact (m : Mem) (ents : Nat) (names : List Bytes)
    (name : Bytes) (hnames : Names m ents names)
    (hasc : names.Pairwise (· < ·)) (hlen : names.length ≤ 2 ^ 30)
    (hoffset : ∀ i, i < names.length → Entry.dataOffset m ents i ≠ 0)
    (h0 : 0 ∉ name) :
    (∃ r, findEntity m name ents names.length = some r
        ∧ (∀ i, names[i]? = some name → r = Entry.dataOffset m ents i)
        ∧ (name ∉ names → r = 0) ∧ (r ≠ 0 ↔ name ∈ names))
      ∧ (∀ i ∈ entriesRead m name ents names.length,
        0 ≤ i ∧ i < (names.length : Int))
      ∧ findEntity m name ents 0 = some 0
      ∧ entriesRead m name ents 0 = [] := by
  obtain ⟨r, hfind, hfound, hmissing⟩ :=
    findEntity_spec hnames hasc (by omega) h0
  refine ⟨⟨r, hfind, hfound, hmissing, fun hr => ?_, fun hmem => ?_⟩,
    entriesRead_lt (by omega), rfl, rfl⟩
  · by_contra hno
    exact hr (hmissing hno)
  · obtain ⟨i, hi⟩ := List.mem_iff_getElem?.1 hmem
    rw [hfound i hi]
    exact hoffset i (List.getElem?_eq_some_iff.1 hi).1

/-- The entries `a`, `b` and `bc`, with their names behind them. -/
def threeEntries : Mem :=
  Mem.write (fun _ => 0) 0
    [48, 0, 0, 0, 0, 0, 0, 0, 5, 0, 0, 0, 0, 0, 0, 0,
      50, 0, 0, 0, 0, 0, 0, 0, 6, 0, 0, 0, 0, 0, 0, 0,
      52, 0, 0, 0, 0, 0, 0, 0, 7, 0, 0, 0, 0, 0, 0, 0,
      97, 0, 98, 0, 98, 99, 0]

theorem names_threeEntries :
    Names threeEntries 0 [[97], [98], [98, 99]] := by
  intro i s hs
  match i with
  | 0 =>
      cases hs
      exact ⟨by decide, rfl⟩
  | 1 =>
      cases hs
      exact ⟨by decide, rfl⟩
  | 2 =>
      cases hs
      exact ⟨by decide, rfl⟩
  | i + 3 => cases hs

/-- The last one of them is found, and `aa` is not. -/
theorem findEntity_three_entries :
    findEntity threeEntries [98, 99] 0 3 = some 7
      ∧ findEntity threeEntries [97, 97] 0 3 = some 0
      ∧ ∀ i ∈ entriesRead threeEntries [97, 97] 0 3, 0 ≤ i ∧ i < 3 := by
  have hoffset : ∀ i, i < [[97], [98], [98, 99]].length →
      Entry.dataOffset threeEntries 0 i ≠ 0 := by
    intro i hi
    match i with
    | 0 => decide
    | 1 => decide
    | 2 => decide
  have hexact := fun name => findEntity_exact threeEntries 0
    [[97], [98], [98, 99]] name names_threeEntries (by decide) (by decide)
    hoffset
  obtain ⟨⟨r, hfind, hfound, -⟩, -⟩ := hexact [98, 99] (by decide)
  obtain ⟨⟨q, hmissing, -, hzero, -⟩, hread, -⟩ := hexact [97, 97] (by decide)
  refine ⟨?_, ?_, hread⟩
  · rw [show r = 7 from hfound 2 rfl] at hfind
    exact hfind
  · rw [hzero (by decide)] at hmissing
    exact hmissing

end MetaFileSystem

end Distfs

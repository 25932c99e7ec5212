/-
The space that `reserve_buffer` makes is the space a record takes.

# The stores

`add_file`, `add_link` and `add_dir` write through pointers, so what one
of them does to the buffer is a list of stores (`Call.stores`), which
says more than what it leaves: a store of a byte that was there before is
a store too. `Call.add_eq` connects the lists to the functions
that `scan_dfs` is made of.

# The loops

Both loops, over the attributes and over the names, have an index of 32
bits. With `2 ^ 32` of either they do not end, and write on behind the
reserved space for as long as they run. With fewer, every store of the
call is in the space that was reserved for it (`stores_spec`), and the
call takes all of it.
-/
import Distfs.Lib.CString
import Distfs.Lib.IndexedLoop
import Distfs.Lib.Machine
import Distfs.Meta.ScanDfs

namespace Distfs

open SourceTree

namespace MetaFSBuilder

-- ========================================================== the stores

/-- The stores of `set_stat` for the node at `n`. -/
def statStores (st : Stat) (n : Nat) : List Mem.Store :=
  [⟨n, Mem.leBytes 4 st.mode.toNat⟩,
    ⟨n + 4, Mem.leBytes 4 st.uid.toNat⟩,
    ⟨n + 8, Mem.leBytes 4 st.gid.toNat⟩,
    ⟨n + 16, Mem.leBytes 8 (toUint64 st.size)⟩,
    ⟨n + 24, Mem.leBytes 8 (toUint64 st.blocks)⟩,
    ⟨n + 40, Mem.leBytes 8
      (toUint64 (st.ctimeNsec + st.ctimeSec * 1000000000))⟩,
    ⟨n + 32, Mem.leBytes 8
      (toUint64 (st.mtimeNsec + st.mtimeSec * 1000000000))⟩]

/-- The store of `xattrs_count`. -/
def countStore (n xattrs : Nat) : Mem.Store :=
  ⟨n + 48, Mem.leBytes 4 (uint32 xattrs)⟩

/-- A turn of a loop that makes the stores of a record for each element
of a vector and moves `current_pos` on: the stores so far, and
`current_pos`. -/
def recordTurn {α : Type} (record : Nat → α → Nat → List Mem.Store)
    (size : α → Nat) (i : Nat) (x : α) (s : List Mem.Store × Nat) :
    List Mem.Store × Nat :=
  (s.1 ++ record i x s.2, s.2 + size x)

/-- The stores for attribute `i` in the loop of `add_xattrs`. -/
def xattrRecord (entries i : Nat) (x : Bytes × Bytes) (pos : Nat) :
    List Mem.Store :=
  let data := pos + (x.1.length + 1)
  [⟨entries + entrySize * i, Mem.leBytes 8 pos⟩,
    ⟨pos, Mem.strncpyBytes x.1 (x.1.length + 1)⟩,
    ⟨entries + entrySize * i + 8, Mem.leBytes 8 data⟩,
    ⟨data, Mem.leBytes 8 x.2.length⟩,
    ⟨data + usizeSize, Mem.strncpyBytes x.2 (x.2.length + 1)⟩]

/-- How far it moves `current_pos`. -/
def xattrSize (x : Bytes × Bytes) : Nat :=
  x.1.length + 1 + usizeSize + (x.2.length + 1)

/-- The stores of `add_xattrs` at `pos`. -/
def xattrStores (fuel : Nat) (xattrs : Xattrs) (pos : Nat) :
    Option (List Mem.Store × Nat) :=
  IndexedLoop.run (recordTurn (xattrRecord pos) xattrSize) xattrs fuel 0
    ([], pos + entrySize * xattrs.length)

/-- The stores for entry `i` in the loop of `add_dir`. -/
def nameRecord (dirent i : Nat) (name : Bytes) (pos : Nat) :
    List Mem.Store :=
  [⟨pos, Mem.strncpyBytes name (name.length + 1)⟩,
    ⟨dirent + entrySize * i, Mem.leBytes 8 pos⟩]

/-- How far it moves `current_pos`. -/
def nameSize (name : Bytes) : Nat := name.length + 1

/-- The stores of the loop of `add_dir`. -/
def nameStores (fuel : Nat) (names : List Bytes) (dirent : Nat) :
    Option (List Mem.Store × Nat) :=
  IndexedLoop.run (recordTurn (nameRecord dirent) nameSize) names fuel 0
    ([], dirent + entrySize * names.length)

/-- A call of a function that adds a record. -/
inductive Call where
  | file (st : Stat) (xattrs : Xattrs)
  | link (st : Stat) (target : Bytes) (xattrs : Xattrs)
  | dir (st : Stat) (names : List Bytes) (xattrs : Xattrs)

namespace Call

/-- What the call passes to `reserve_buffer`. -/
def amount : Call → Nat
  | .file _ xattrs => nodeSize + xattrsLen xattrs
  | .link _ target xattrs =>
      nodeSize + (target.length + 1) + xattrsLen xattrs
  | .dir _ names xattrs => nodeSize + namesLen names + xattrsLen xattrs

/-- The stores of the call with its node at `n`, and `current_pos` when it
returns; `none` if one of its loops takes more than `fuel` turns. -/
def stores (fuel n : Nat) : Call → Option (List Mem.Store × Nat)
  | .file st xattrs =>
      match xattrStores fuel xattrs (n + nodeSize) with
      | none => none
      | some (ws, pos) =>
          some (statStores st n ++ countStore n xattrs.length :: ws, pos)
  | .link st target xattrs =>
      match xattrStores fuel xattrs (n + nodeSize) with
      | none => none
      | some (ws, pos) =>
          let len := target.length + 1
          some (statStores st n ++ countStore n xattrs.length :: ws
            ++ [⟨pos, Mem.strncpyBytes target len⟩,
              ⟨n + 64, Mem.leBytes 8 pos⟩], pos + len)
  | .dir st names xattrs =>
      match xattrStores fuel xattrs (n + nodeSize) with
      | none => none
      | some (ws, dirent) =>
          match nameStores fuel names dirent with
          | none => none
          | some (us, pos) =>
              some (statStores st n
                ++ ⟨n + 56, Mem.leBytes 8 names.length⟩
                :: countStore n xattrs.length :: ws
                ++ ⟨n + 64, Mem.leBytes 8 dirent⟩ :: us, pos)

/-- Its vectors have fewer elements than an `unsigned` can count. -/
def Indexed : Call → Prop
  | .file _ xattrs => xattrs.length < 2 ^ 32
  | .link _ _ xattrs => xattrs.length < 2 ^ 32
  | .dir _ names xattrs => xattrs.length < 2 ^ 32 ∧ names.length < 2 ^ 32

/-- The turns that its longer loop takes. -/
def turns : Call → Nat
  | .file _ xattrs => xattrs.length
  | .link _ _ xattrs => xattrs.length
  | .dir _ names xattrs => max xattrs.length names.length

end Call

-- ====================================================== the two loops

section Sweep

variable {α : Type} {record : Nat → α → Nat → List Mem.Store}
  {size : α → Nat} {base : Nat}

/-- Where each record is in its entry, and behind all entries up to where
it ends, the stores of the loop are in the entries, and behind them up to
where the loop ends. -/
theorem sweep_within
    (hrecord : ∀ i x pos, base + 16 * (i + 1) ≤ pos →
      Mem.Within base (pos + size x) (record i x pos)) (xs : List α) :
    ∀ (i : Nat) (s : List Mem.Store × Nat),
      base + 16 * (i + xs.length) ≤ s.2 → Mem.Within base s.2 s.1 →
      Mem.Within base
        (IndexedLoop.sweep (recordTurn record size) i xs s).2
        (IndexedLoop.sweep (recordTurn record size) i xs s).1 := by
  induction xs with
  | nil => exact fun i s _ h => h
  | cons x xs ih =>
      intro i s hpos h
      rw [List.length_cons] at hpos
      refine ih (i + 1) (recordTurn record size i x s) ?_ ?_
      · simp only [recordTurn]
        omega
      · exact (h.mono (Nat.le_refl _) (Nat.le_add_right _ _)).append
          (hrecord i x s.2 (by omega))

end Sweep

theorem xattrRecord_within {entries i pos : Nat} {x : Bytes × Bytes}
    (h : entries + 16 * (i + 1) ≤ pos) :
    Mem.Within entries (pos + xattrSize x) (xattrRecord entries i x pos) := by
  intro w hw
  simp only [xattrRecord, List.mem_cons, List.not_mem_nil, or_false] at hw
  rcases hw with rfl | rfl | rfl | rfl | rfl
  all_goals
    simp only [Mem.length_leBytes, Mem.length_strncpyBytes, entrySize,
      xattrSize, usizeSize]
    omega

theorem nameRecord_within {dirent i pos : Nat} {name : Bytes}
    (h : dirent + 16 * (i + 1) ≤ pos) :
    Mem.Within dirent (pos + nameSize name)
      (nameRecord dirent i name pos) := by
  intro w hw
  simp only [nameRecord, List.mem_cons, List.not_mem_nil, or_false] at hw
  rcases hw with rfl | rfl
  all_goals
    simp only [Mem.length_leBytes, Mem.length_strncpyBytes, entrySize,
      nameSize]
    omega

/-- The loop of `add_xattrs` leaves what its stores leave. -/
theorem addXattrsFrom_eq (entries : Nat) (xattrs : Xattrs) (m : Mem) :
    ∀ (i : Nat) (s : List Mem.Store × Nat),
      addXattrsFrom entries i xattrs (Mem.perform s.1 m) s.2
        = (Mem.perform (IndexedLoop.sweep
            (recordTurn (xattrRecord entries) xattrSize) i xattrs s).1 m,
          (IndexedLoop.sweep
            (recordTurn (xattrRecord entries) xattrSize) i xattrs s).2) := by
  induction xattrs with
  | nil => exact fun i s => rfl
  | cons x xattrs ih =>
      intro i s
      have hsize : s.2 + xattrSize x
          = s.2 + (x.1.length + 1) + usizeSize + (x.2.length + 1) := by
        rw [xattrSize]
        omega
      rw [IndexedLoop.sweep, ← ih, recordTurn, Mem.perform_append]
      simp only [hsize]
      rfl

/-- The loop of `add_dir` leaves what its stores leave. -/
theorem addNamesFrom_eq (dirent : Nat) (names : List Bytes) (m : Mem) :
    ∀ (i : Nat) (s : List Mem.Store × Nat),
      addNamesFrom dirent i names (Mem.perform s.1 m) s.2
        = (Mem.perform (IndexedLoop.sweep
            (recordTurn (nameRecord dirent) nameSize) i names s).1 m,
          (IndexedLoop.sweep
            (recordTurn (nameRecord dirent) nameSize) i names s).2) := by
  induction names with
  | nil => exact fun i s => rfl
  | cons name names ih =>
      intro i s
      rw [IndexedLoop.sweep, ← ih, recordTurn, Mem.perform_append]
      rfl

/-- The stores of `add_xattrs` stay in the space that `xattrs_len`
counts, and it leaves what they leave. -/
theorem xattrStores_spec {fuel pos pos' : Nat} {xattrs : Xattrs}
    {ws : List Mem.Store} (h : xattrStores fuel xattrs pos = some (ws, pos')) :
    pos' = pos + xattrsLen xattrs ∧ Mem.Within pos pos' ws
      ∧ ∀ m, addXattrs xattrs m pos = (Mem.perform ws m, pos') := by
  obtain ⟨-, -, heq⟩ := IndexedLoop.run_eq_some_iff.1 h
  have hleft : ∀ m, addXattrs xattrs m pos = (Mem.perform ws m, pos') := by
    intro m
    have hsweep := addXattrsFrom_eq pos xattrs m 0
      ([], pos + entrySize * xattrs.length)
    rw [← heq] at hsweep
    exact hsweep
  have hwithin := sweep_within
    (fun i x p => @xattrRecord_within pos i p x) xattrs 0
    ([], pos + entrySize * xattrs.length)
    (by rw [entrySize, Nat.zero_add]) Mem.within_nil
  rw [← heq] at hwithin
  refine ⟨?_, hwithin, hleft⟩
  have hend := (addXattrs_spec xattrs (fun _ => 0) pos).1
  rw [hleft] at hend
  exact hend

theorem nameStores_spec {fuel dirent pos : Nat} {names : List Bytes}
    {us : List Mem.Store} (h : nameStores fuel names dirent = some (us, pos)) :
    pos = dirent + namesLen names ∧ Mem.Within dirent pos us
      ∧ ∀ m, addNamesFrom dirent 0 names m
          (dirent + entrySize * names.length) = (Mem.perform us m, pos) := by
  obtain ⟨-, -, heq⟩ := IndexedLoop.run_eq_some_iff.1 h
  have hlen := namesLen_eq names
  have hstart : dirent + 16 * (0 + names.length)
      ≤ dirent + entrySize * names.length := by
    rw [entrySize, Nat.zero_add]
  have hleft : ∀ m, addNamesFrom dirent 0 names m
      (dirent + entrySize * names.length) = (Mem.perform us m, pos) := by
    intro m
    have hsweep := addNamesFrom_eq dirent names m 0
      ([], dirent + entrySize * names.length)
    rw [← heq] at hsweep
    exact hsweep
  have hwithin := sweep_within
    (fun i x p => @nameRecord_within dirent i p x) names 0
    ([], dirent + entrySize * names.length) hstart Mem.within_nil
  rw [← heq] at hwithin
  refine ⟨?_, hwithin, hleft⟩
  have hend := (addNamesFrom_spec dirent names 0 (fun _ => 0)
    (dirent + entrySize * names.length) hstart).1
  rw [hleft] at hend
  simp only [entrySize] at hend
  omega

-- ======================================================== one call

theorem statStores_within (st : Stat) (n : Nat) :
    Mem.Within n (n + nodeSize) (statStores st n) := by
  intro w hw
  simp only [statStores, List.mem_cons, List.not_mem_nil, or_false] at hw
  rcases hw with rfl | rfl | rfl | rfl | rfl | rfl | rfl
  all_goals
    simp only [Mem.length_leBytes, nodeSize]
    omega

theorem countStore_within (n xattrs : Nat) :
    n ≤ (countStore n xattrs).pos
      ∧ (countStore n xattrs).pos + (countStore n xattrs).bytes.length
        ≤ n + nodeSize := by
  simp only [countStore, Mem.length_leBytes, nodeSize]
  omega

namespace Call

variable {heap : Nat → Mem} {b r : MetaFSBuilder} {c : Call}
  {fuel n pos : Nat} {ws : List Mem.Store}

/-- The loops of a call end if the vectors can be indexed, and else they
do not. -/
theorem stores_isSome_iff :
    (c.stores fuel n).isSome ↔ c.Indexed ∧ c.turns ≤ fuel := by
  have hxattrs : ∀ xattrs pos, (∃ x, xattrStores fuel xattrs pos = some x)
      ↔ xattrs.length < 2 ^ 32 ∧ xattrs.length ≤ fuel := by
    intro xattrs pos
    simp only [xattrStores, IndexedLoop.run_eq_some_iff, exists_and_left,
      exists_eq, and_true]
  have hnames : ∀ names pos, (∃ x, nameStores fuel names pos = some x)
      ↔ names.length < 2 ^ 32 ∧ names.length ≤ fuel := by
    intro names pos
    simp only [nameStores, IndexedLoop.run_eq_some_iff, exists_and_left,
      exists_eq, and_true]
  cases c with
  | file st xattrs =>
      rw [Indexed, turns, ← hxattrs xattrs (n + nodeSize), stores]
      cases xattrStores fuel xattrs (n + nodeSize) <;> simp
  | link st target xattrs =>
      rw [Indexed, turns, ← hxattrs xattrs (n + nodeSize), stores]
      cases xattrStores fuel xattrs (n + nodeSize) <;> simp
  | dir st names xattrs =>
      rw [Indexed, turns, Nat.max_le, and_and_and_comm,
        ← hxattrs xattrs (n + nodeSize), stores]
      cases hx : xattrStores fuel xattrs (n + nodeSize) with
      | none => simp
      | some x =>
          rw [← hnames names x.2]
          simp only
          cases nameStores fuel names x.2 <;> simp

/-- The stores of a call stay in the space it reserves, which ends where
the call ends. -/
theorem stores_spec (h : c.stores fuel n = some (ws, pos)) :
    pos = n + c.amount ∧ Mem.Within n pos ws := by
  have hnode : nodeSize = 72 := rfl
  cases c with
  | file st xattrs =>
      rw [stores] at h
      split at h
      · cases h
      · next us p hx =>
        obtain ⟨hend, hwithin, -⟩ := xattrStores_spec hx
        cases h
        refine ⟨by rw [amount]; omega, fun w hw => ?_⟩
        rw [List.mem_append, List.mem_cons] at hw
        rcases hw with hw | rfl | hw
        · have := statStores_within st n w hw
          omega
        · have := countStore_within n xattrs.length
          omega
        · have := hwithin w hw
          omega
  | link st target xattrs =>
      rw [stores] at h
      split at h
      · cases h
      · next us p hx =>
        obtain ⟨hend, hwithin, -⟩ := xattrStores_spec hx
        cases h
        refine ⟨by rw [amount]; omega, fun w hw => ?_⟩
        simp only [List.mem_append, List.mem_cons, List.not_mem_nil,
          or_false] at hw
        rcases hw with (hw | rfl | hw) | rfl | rfl
        · have := statStores_within st n w hw
          omega
        · have := countStore_within n xattrs.length
          omega
        · have := hwithin w hw
          omega
        · simp only [Mem.length_strncpyBytes]
          omega
        · simp only [Mem.length_leBytes]
          omega
  | dir st names xattrs =>
      rw [stores] at h
      split at h
      · cases h
      · next us p hx =>
        obtain ⟨hend, hwithin, -⟩ := xattrStores_spec hx
        split at h
        · cases h
        · next vs q hn =>
          obtain ⟨hend', hwithin', -⟩ := nameStores_spec hn
          cases h
          refine ⟨by rw [amount]; omega, fun w hw => ?_⟩
          simp only [List.mem_append, List.mem_cons] at hw
          rcases hw with (hw | rfl | rfl | hw) | rfl | hw
          · have := statStores_within st n w hw
            omega
          · simp only [Mem.length_leBytes]
            omega
          · have := countStore_within n xattrs.length
            omega
          · have := hwithin w hw
            omega
          · simp only [Mem.length_leBytes]
            omega
          · have := hwithin' w hw
            omega

/-- The functions of the scan, without the offset they return. -/
def add (heap : Nat → Mem) (b : MetaFSBuilder) :
    Call → Option MetaFSBuilder
  | .file st xattrs => (b.addFile heap st xattrs).map Prod.fst
  | .link st target xattrs => (b.addLink heap st target xattrs).map Prod.fst
  | .dir st names xattrs => (b.addDir heap st names xattrs).map Prod.fst

/-- They leave what the stores leave. -/
theorem add_eq (hr : b.reserveBuffer heap c.amount = some r)
    (h : c.stores fuel r.currentPos = some (ws, pos)) :
    c.add heap b = some { r with
      data := Mem.perform ws r.data, currentPos := pos } := by
  cases c with
  | file st xattrs =>
      rw [stores] at h
      split at h
      · cases h
      · next us p hx =>
        obtain ⟨-, -, hleft⟩ := xattrStores_spec hx
        cases h
        rw [amount] at hr
        simp only [add, addFile, hr, hleft, Option.map_some,
          Mem.perform_append]
        rfl
  | link st target xattrs =>
      rw [stores] at h
      split at h
      · cases h
      · next us p hx =>
        obtain ⟨-, -, hleft⟩ := xattrStores_spec hx
        cases h
        rw [amount] at hr
        simp only [add, addLink, hr, hleft, Option.map_some,
          Mem.perform_append]
        rfl
  | dir st names xattrs =>
      rw [stores] at h
      split at h
      · cases h
      · next us p hx =>
        obtain ⟨-, -, hleft⟩ := xattrStores_spec hx
        split at h
        · cases h
        · next vs q hn =>
          obtain ⟨-, -, hleft'⟩ := nameStores_spec hn
          cases h
          rw [amount] at hr
          simp only [add, addDir, hr, hleft, hleft', Option.map_some,
            Mem.perform_append]
          rfl

end Call

-- =================================================== calls one by one

/-- What has come of a call: `new char[]` threw, its loops are not through
after the turns they were given, or it returned. Then `reserved` is the
state behind `reserve_buffer`. -/
inductive Call.Outcome where
  | badAlloc
  | running
  | returned (reserved after : MetaFSBuilder) (stores : List Mem.Store)

/-- A call whose loops are given `fuel` turns. -/
def Call.perform (heap : Nat → Mem) (fuel : Nat) (b : MetaFSBuilder)
    (c : Call) : Call.Outcome :=
  match b.reserveBuffer heap c.amount with
  | none => .badAlloc
  | some r =>
      match c.stores fuel r.currentPos with
      | none => .running
      | some (ws, pos) =>
          .returned r { r with
            data := Mem.perform ws r.data, currentPos := pos } ws

/-- The builder after a call that returned. -/
def Call.step (heap : Nat → Mem) (fuel : Nat) (b : MetaFSBuilder)
    (c : Call) : Option MetaFSBuilder :=
  match c.perform heap fuel b with
  | .returned _ after _ => some after
  | _ => none

/-- A call that returned has kept to the space it reserved. -/
structure Kept (b : MetaFSBuilder) (c : Call)
    (reserved after : MetaFSBuilder) (stores : List Mem.Store) : Prop where
  room : b.currentPos + c.amount ≤ reserved.dataSize.1
  advance : after.currentPos = b.currentPos + c.amount
  fits : after.currentPos ≤ after.dataSize.1
  inside : Mem.Within b.currentPos after.currentPos stores
  left : after.data = Mem.perform stores reserved.data
  below : ∀ a, a < b.currentPos → after.data a = b.data a

/-- The space a call reserves covers its record: the call comes to an
end, and if it returns, it has kept to that space. The doubling loop of
`reserve_buffer` has then ended by its own test (`Kept.room`). -/
structure Covered (heap : Nat → Mem) (b : MetaFSBuilder) (c : Call) :
    Prop where
  ends : ∃ turns, ∀ fuel, turns ≤ fuel →
    c.perform heap fuel b ≠ .running
  kept : ∀ fuel reserved after stores,
    c.perform heap fuel b = .returned reserved after stores →
    Kept b c reserved after stores

variable {heap : Nat → Mem} {b : MetaFSBuilder} {c : Call} {fuel : Nat}

/-- What a call that returned has done. -/
theorem kept_of_perform (hfits : b.currentPos ≤ b.dataSize.1)
    {reserved after : MetaFSBuilder} {stores : List Mem.Store}
    (h : c.perform heap fuel b = .returned reserved after stores) :
    Kept b c reserved after stores
      ∧ c.add heap b = some after := by
  rcases @reserveBuffer_spec heap b c.amount
    with ⟨r, hreserve, hpos, hroom, hdata⟩ | ⟨hnone, -⟩
  · simp only [Call.perform, hreserve] at h
    split at h
    · cases h
    · next ws pos hstores =>
      have hadd := Call.add_eq hreserve hstores
      cases h
      obtain ⟨hend, hwithin⟩ := Call.stores_spec hstores
      rw [hpos] at hend hwithin
      refine ⟨⟨by omega, hend, ?_, hwithin, rfl, fun a ha => ?_⟩, hadd⟩
      · show pos ≤ reserved.dataSize.1
        omega
      · exact (hwithin.untouched (.inl ha) _).trans
          (hdata a (Nat.lt_of_lt_of_le ha hfits))
  · simp only [Call.perform, hnone] at h
    cases h

/-- The space covers the record of a call exactly if there is no such
space, or the vectors can be indexed. -/
theorem covered_iff (hfits : b.currentPos ≤ b.dataSize.1) :
    Covered heap b c
      ↔ b.reserveBuffer heap c.amount = none ∨ c.Indexed := by
  constructor
  · rintro ⟨⟨turns, hends⟩, -⟩
    cases hreserve : b.reserveBuffer heap c.amount with
    | none => exact .inl rfl
    | some r =>
        right
        have hend := hends turns (Nat.le_refl _)
        simp only [Call.perform, hreserve] at hend
        have hsome : (c.stores turns r.currentPos).isSome := by
          cases hstores : c.stores turns r.currentPos with
          | none =>
              rw [hstores] at hend
              exact absurd rfl hend
          | some x => rfl
        exact (Call.stores_isSome_iff.1 hsome).1
  · intro h
    refine ⟨⟨c.turns, fun fuel hfuel => ?_⟩,
      fun fuel reserved after stores hperform =>
        (kept_of_perform hfits hperform).1⟩
    cases hreserve : b.reserveBuffer heap c.amount with
    | none => simp [Call.perform, hreserve]
    | some r =>
        have hindexed : c.Indexed := by
          rcases h with hnone | hindexed
          · rw [hreserve] at hnone
            cases hnone
          · exact hindexed
        obtain ⟨x, hx⟩ := Option.isSome_iff_exists.1
          (Call.stores_isSome_iff.2 ⟨hindexed, hfuel⟩)
        simp only [Call.perform, hreserve]
        rw [hx]
        simp

/-- The position stays in the buffer. -/
theorem fits_run (calls : List Call)
    (hrun : Machine.run (Call.step heap fuel) (start heap) calls = some b) :
    b.currentPos ≤ b.dataSize.1 := by
  refine Machine.run_invariant
    (P := fun b : MetaFSBuilder => b.currentPos ≤ b.dataSize.1)
    (fun b c b' hb hstep => ?_) calls _ _
    (show usizeSize ≤ chunkSizeBytes by decide) hrun
  unfold Call.step at hstep
  split at hstep
  · next r after ws hperform =>
    cases hstep
    exact (kept_of_perform hb hperform).1.fits
  · cases hstep

/-- In every sequence of calls, the space that each call reserves covers
its record, exactly if each call finds no space at all, or its vectors can
be indexed. -/
theorem all_covered_iff (heap : Nat → Mem) (fuel : Nat)
    (calls : List Call) :
    (∀ pre c post b, calls = pre ++ c :: post →
        Machine.run (Call.step heap fuel) (start heap) pre = some b →
        Covered heap b c)
      ↔ ∀ pre c post b, calls = pre ++ c :: post →
        Machine.run (Call.step heap fuel) (start heap) pre = some b →
        b.reserveBuffer heap c.amount = none ∨ c.Indexed := by
  constructor
  · intro h pre c post b hcalls hrun
    exact (covered_iff (fits_run pre hrun)).1 (h pre c post b hcalls hrun)
  · intro h pre c post b hcalls hrun
    exact (covered_iff (fits_run pre hrun)).2 (h pre c post b hcalls hrun)

/-- A directory of `2 ^ 32` entries named `a`. -/
def tooMany : Call :=
  .dir { mode := 0x41ED, uid := 0, gid := 0, size := 0, blocks := 0
         mtimeSec := 0, mtimeNsec := 0, ctimeSec := 0, ctimeNsec := 0 }
    (List.replicate (2 ^ 32) [97]) []

/-- There is space for such a directory, and its `add_dir` does not come
to an end. -/
theorem tooMany_not_covered :
    ¬ ∀ pre c post b, [tooMany] = pre ++ c :: post →
      Machine.run (Call.step (fun _ _ => 0) 0) (start fun _ _ => 0) pre
        = some b →
      Covered (fun _ _ => 0) b c := by
  intro h
  have hcovered := h [] tooMany [] (start fun _ _ => 0) rfl rfl
  rcases (covered_iff (show usizeSize ≤ chunkSizeBytes by decide)).1 hcovered
    with hnone | ⟨-, hindexed⟩
  · have hnames : namesLen (List.replicate (2 ^ 32) [97])
        = 2 ^ 32 * 18 := by
      rw [namesLen, List.map_replicate, List.sum_replicate_nat]
      rfl
    have hamount : tooMany.amount = nodeSize + 2 ^ 32 * 18 + xattrsLen [] := by
      rw [tooMany, Call.amount, hnames]
    have hnode : nodeSize = 72 := rfl
    have hnil : xattrsLen [] = 0 := rfl
    rcases @reserveBuffer_spec (fun _ _ => 0) (start fun _ _ => 0)
        tooMany.amount with ⟨b, hsome, -⟩ | ⟨-, hlimit⟩
    · rw [hnone] at hsome
      cases hsome
    · have hpos : (start fun _ _ => 0).currentPos = 8 := rfl
      have hmax : allocLimit = 2 ^ 63 - 1 := rfl
      omega
  · rw [List.length_replicate] at hindexed
    exact Nat.lt_irrefl _ hindexed

end MetaFSBuilder

end Distfs

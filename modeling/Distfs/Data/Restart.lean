/-
The constructor of `ChunkStore`, over a directory that is not empty.

# The scan

Three nested loops read the directories and parse the names of the files.
They share the variable for the entry, but each reads it only before a loop
within it assigns it again. Names come in any order. On what a store leaves
behind (`LeftBehind`) the scan finds the ids of the files
(`mem_scan`), because `strtol` inverts `%X` (`strtol_hexUpper`).

# The collector

The ids are entered in ascending order, by an iterator over the very set
that the eviction callback erases from. What is evicted has been entered
before, so that the iterator is never at an erased element
(`enter_spec`); and what remains are the largest ids.
-/
import Distfs.Data.StoreRuns
import Distfs.Lib.Strtol

namespace Distfs

open Transfer

/-- What `opendir` and `readdir` find: the entries of the base directory
and of the two levels below it, `none` where `opendir` fails. -/
structure Listing where
  base : Option (List Bytes)
  outer : Bytes → Option (List Bytes)
  inner : Bytes → Bytes → Option (List Bytes)

namespace ChunkStore

/-- The entries `.` and `..`. -/
def isDots (name : Bytes) : Bool := name = [46] ∨ name = [46, 46]

/-- The innermost loop: a name that `strtol` parses to its end is an id. -/
def scanFiles (ids : Finset UInt32) (names : List Bytes) : Finset UInt32 :=
  names.foldl (fun ids name =>
    let (id, rest) := Strtol.strtol name
    if ¬ isDots name ∧ rest = [] then insert (UInt32.ofInt id) ids
    else ids) ids

/-- The loop over the directories of the second level. -/
def scanInner (d : Listing) (outer : Bytes) (ids : Finset UInt32)
    (names : List Bytes) : Finset UInt32 :=
  names.foldl (fun ids name =>
    if isDots name then ids
    else
      match d.inner outer name with
      | none => ids
      | some names => scanFiles ids names) ids

/-- The directory scan of the constructor. -/
def scan (d : Listing) : Finset UInt32 :=
  match d.base with
  | none => ∅
  | some names =>
      names.foldl (fun ids name =>
        if isDots name then ids
        else
          match d.outer name with
          | none => ids
          | some names => scanInner d name ids names) ∅

/-- Where an iterator over a set of ids goes: to the least one from `n`
on. -/
def nextFrom (ids : Finset UInt32) (n : Nat) : Option UInt32 :=
  let above := (ids.filter fun id => n ≤ id.toNat).image UInt32.toNat
  if h : above.Nonempty then some (UInt32.ofNat (above.min' h)) else none

/-- The last loop of the constructor, with the iterator at `it`. To move an
iterator on whose element is no longer in the set is undefined. -/
def enter (ios : UInt32 → Io) :
    Nat → Option UInt32 → ChunkStore → Option ChunkStore
  | _, none, s => some s
  | 0, some _, _ => none
  | fuel + 1, some id, s =>
      match s.touch (ios id) id with
      | none => none
      | some s =>
          if id ∈ s.inStore then
            enter ios fuel (nextFrom s.inStore (id.toNat + 1)) s
          else none

/-- The constructor. -/
def construct (d : Listing) (ios : UInt32 → Io) (size : Nat)
    (files : ChunkPath → Option Bytes) : Option ChunkStore :=
  let s : ChunkStore :=
    { files := files, inStore := scan d, collector := .new size }
  enter ios s.inStore.card (nextFrom s.inStore 0) s

-- ================================================================ parsing

/-- `strtol` reads the digits that `%X` prints. -/
theorem digit_hexDigit {d : Nat} (hd : d < 16) :
    Strtol.digit (hexDigit d) = some d := by
  have hto : (hexDigit d).toNat = if d < 10 then 48 + d else 55 + d := by
    unfold hexDigit
    rw [UInt8.toNat_ofNat', Nat.mod_eq_of_lt]
    split <;> omega
  unfold Strtol.digit
  rw [hto]
  by_cases hlt : d < 10
  · rw [if_pos hlt, if_pos (by omega)]
    congr 1
    omega
  · rw [if_neg hlt, if_neg (by omega), if_pos (by omega)]
    congr 1
    omega

/-- `strtol` inverts `%X`. -/
theorem strtol_hexUpper {n : Nat} (hn : n < 2 ^ 63) :
    Strtol.strtol (hexUpper n) = ((n : Int), []) := by
  have hdigits : ∀ d ∈ (Nat.digits 16 n).reverse,
      Strtol.digit (hexDigit d) = some d := fun d hd =>
    digit_hexDigit (Nat.digits_lt_base (by omega) (List.mem_reverse.1 hd))
  have hvalue : Strtol.value (Nat.digits 16 n).reverse = n := by
    rw [Strtol.value_reverse, Nat.ofDigits_digits]
  by_cases hzero : n = 0
  · rw [hzero]
    decide
  · have hne : (Nat.digits 16 n).reverse ≠ [] := by
      rw [ne_eq, List.reverse_eq_nil_iff, Nat.digits_eq_nil_iff_eq_zero]
      exact hzero
    rw [hexUpper, if_neg hzero,
      Strtol.strtol_digits hdigits hne (by rw [hvalue]; exact hn), hvalue]

/-- The id that a name stands for. -/
def Parses (name : Bytes) (id : UInt32) : Prop :=
  ∃ v, Strtol.strtol name = (v, []) ∧ UInt32.ofInt v = id

/-- The name of a chunk's file is parsed to its id. -/
theorem parses_name (id : UInt32) : Parses (idToPath id).name id := by
  have hlt := id.toNat_lt
  refine ⟨(id.toNat : Int), strtol_hexUpper (by omega), ?_⟩
  apply UInt32.toNat_inj.1
  unfold UInt32.ofInt
  rw [UInt32.toNat_ofNat']
  omega

/-- A name is the name of one id. -/
theorem Parses.unique {name : Bytes} {i j : UInt32} (hi : Parses name i)
    (hj : Parses name j) : i = j := by
  obtain ⟨v, hv, rfl⟩ := hi
  obtain ⟨w, hw, rfl⟩ := hj
  rw [hv, Prod.mk.injEq] at hw
  rw [hw.1]

/-- No number is printed as `.` or `..`. -/
theorem isDots_hexUpper {n : Nat} (hn : n < 2 ^ 63) :
    isDots (hexUpper n) = false := by
  cases hdots : isDots (hexUpper n) with
  | false => rfl
  | true =>
      have hparse := strtol_hexUpper hn
      rw [isDots, decide_eq_true_iff] at hdots
      rcases hdots with h | h
      · rw [h, show Strtol.strtol [46] = (0, [46]) from by decide] at hparse
        cases hparse
      · rw [h, show Strtol.strtol [46, 46] = (0, [46, 46]) from by decide]
          at hparse
        cases hparse

/-- None of the three parts is `.` or `..`. -/
theorem isDots_idToPath (id : UInt32) :
    isDots (idToPath id).outer = false ∧ isDots (idToPath id).inner = false
      ∧ isDots (idToPath id).name = false := by
  have hsmall : ∀ x : UInt32, x.toNat < 2 ^ 63 := fun x => by
    have := x.toNat_lt
    omega
  exact ⟨isDots_hexUpper (hsmall _), isDots_hexUpper (hsmall _),
    isDots_hexUpper (hsmall _)⟩

-- =============================================================== the scan

/-- What the operations of a store leave behind: files under the paths of
ids, each at most a chunk. -/
def LeftBehind (files : ChunkPath → Option Bytes) : Prop :=
  ∀ p content, files p = some content →
    ∃ id, p = idToPath id ∧ content.length ≤ chunkSizeBytes

/-- The listing is one of these files, in some order; `.` and `..` and
empty directories may be in it. -/
structure Shows (d : Listing) (files : ChunkPath → Option Bytes) :
    Prop where
  found : ∀ p, (files p).isSome →
    (∃ names, d.base = some names ∧ p.outer ∈ names)
      ∧ (∃ names, d.outer p.outer = some names ∧ p.inner ∈ names)
      ∧ ∃ names, d.inner p.outer p.inner = some names ∧ p.name ∈ names
  only : ∀ p names, isDots p.outer = false → isDots p.inner = false →
    d.inner p.outer p.inner = some names → p.name ∈ names →
    isDots p.name = false → (files p).isSome

/-- A loop that adds to a set. -/
theorem mem_foldl {α : Type} {f : Finset UInt32 → α → Finset UInt32}
    {P : α → Prop} {id : UInt32}
    (hf : ∀ ids a, id ∈ f ids a ↔ id ∈ ids ∨ P a) (l : List α) :
    ∀ ids, id ∈ l.foldl f ids ↔ id ∈ ids ∨ ∃ a ∈ l, P a := by
  induction l with
  | nil => exact fun ids => by simp
  | cons a l ih =>
      intro ids
      rw [List.foldl_cons, ih, hf, or_assoc]
      refine or_congr_right ⟨?_, ?_⟩
      · rintro (ha | ⟨b, hb, hPb⟩)
        · exact ⟨a, List.mem_cons_self, ha⟩
        · exact ⟨b, List.mem_cons_of_mem _ hb, hPb⟩
      · rintro ⟨b, hb, hPb⟩
        rcases List.mem_cons.1 hb with rfl | hb
        · exact .inl hPb
        · exact .inr ⟨b, hb, hPb⟩

/-- The inner loop adds the ids of the names that parse. -/
theorem mem_scanFiles {ids : Finset UInt32} {names : List Bytes}
    {id : UInt32} :
    id ∈ scanFiles ids names
      ↔ id ∈ ids ∨ ∃ name ∈ names, isDots name = false ∧ Parses name id := by
  refine mem_foldl (fun ids name => ?_) names ids
  simp only
  generalize hparse : Strtol.strtol name = r
  obtain ⟨v, rest⟩ := r
  simp only
  split
  · next h =>
    obtain ⟨hdots, rfl⟩ := h
    rw [Finset.mem_insert, or_comm]
    refine or_congr_right ⟨fun hid => ?_, fun ⟨_, w, hw, hid⟩ => ?_⟩
    · exact ⟨by simpa using hdots, v, hparse, hid.symm⟩
    · rw [hparse, Prod.mk.injEq] at hw
      rw [← hid, hw.1]
  · next h =>
    refine (or_iff_left fun ⟨hdots, w, hw, _⟩ => h ⟨?_, ?_⟩).symm
    · rw [hdots]
      exact Bool.false_ne_true
    · rw [hparse, Prod.mk.injEq] at hw
      exact hw.2

/-- The directory at the second level lists a file for the id. -/
def Lists (d : Listing) (outer inner : Bytes) (id : UInt32) : Prop :=
  ∃ names, d.inner outer inner = some names
    ∧ ∃ name ∈ names, isDots name = false ∧ Parses name id

/-- The middle loop those of the inner directories. -/
theorem mem_scanInner {d : Listing} {outer : Bytes} {ids : Finset UInt32}
    {names : List Bytes} {id : UInt32} :
    id ∈ scanInner d outer ids names
      ↔ id ∈ ids ∨ ∃ inner ∈ names, isDots inner = false
        ∧ Lists d outer inner id := by
  refine mem_foldl (fun ids inner => ?_) names ids
  cases hdots : isDots inner with
  | true => simp
  | false =>
      cases hopen : d.inner outer inner with
      | none => simp [Lists, hopen]
      | some names => simp [Lists, hopen, mem_scanFiles]

/-- The scan finds an id exactly if some directory lists it. -/
theorem mem_scan_iff {d : Listing} {id : UInt32} :
    id ∈ scan d ↔ ∃ outers, d.base = some outers
      ∧ ∃ outer ∈ outers, isDots outer = false
        ∧ ∃ inners, d.outer outer = some inners
          ∧ ∃ inner ∈ inners, isDots inner = false
            ∧ Lists d outer inner id := by
  unfold scan
  cases hbase : d.base with
  | none => simp
  | some outers =>
      have hfold := @mem_foldl Bytes
        (fun ids name =>
          if isDots name then ids
          else
            match d.outer name with
            | none => ids
            | some names => scanInner d name ids names)
        (fun outer => isDots outer = false
          ∧ ∃ inners, d.outer outer = some inners
            ∧ ∃ inner ∈ inners, isDots inner = false
              ∧ Lists d outer inner id) id (fun ids outer => by
          cases hdots : isDots outer with
          | true => simp
          | false =>
              cases hopen : d.outer outer with
              | none => simp
              | some inners => simp [mem_scanInner]) outers ∅
      simp only
      rw [hfold]
      simp

/-- The scan finds the ids that have a file. -/
theorem mem_scan {d : Listing} {s : ChunkStore} (hleft : LeftBehind s.files)
    (hshows : Shows d s.files) (id : UInt32) :
    id ∈ scan d ↔ (s.fileOf id).isSome := by
  rw [mem_scan_iff]
  constructor
  · rintro ⟨outers, -, outer, -, houter, inners, -, inner, -, hinner, names,
      hopen, name, hname, hdots, hparses⟩
    have hfile := hshows.only
      { outer := outer, inner := inner, name := name } names houter hinner
      hopen hname hdots
    obtain ⟨content, hcontent⟩ := Option.isSome_iff_exists.1 hfile
    obtain ⟨i, hpath, -⟩ := hleft _ content hcontent
    have hi : Parses name i := by
      have hparse := parses_name i
      rw [← hpath] at hparse
      exact hparse
    rw [hi.unique hparses] at hpath
    rw [fileOf, ← hpath]
    exact hfile
  · intro hfile
    obtain ⟨⟨outers, hbase, houter⟩, ⟨inners, hopen, hinner⟩, names, hopen',
      hname⟩ := hshows.found (idToPath id) hfile
    obtain ⟨hdots, hdots', hdots''⟩ := isDots_idToPath id
    exact ⟨outers, hbase, _, houter, hdots, inners, hopen, _, hinner, hdots',
      names, hopen', _, hname, hdots'', parses_name id⟩

-- =========================================================== the iterator

/-- At the end of the set all ids are behind. -/
theorem nextFrom_none {ids : Finset UInt32} {n : Nat}
    (h : nextFrom ids n = none) {id : UInt32} (hid : id ∈ ids) :
    id.toNat < n := by
  unfold nextFrom at h
  simp only at h
  split at h
  · cases h
  · next hempty =>
    by_contra hge
    apply hempty
    exact ⟨id.toNat, Finset.mem_image_of_mem _
      (Finset.mem_filter.2 ⟨hid, Nat.not_lt.1 hge⟩)⟩

/-- Before it the next one is the least that is not. -/
theorem nextFrom_some {ids : Finset UInt32} {n : Nat} {id : UInt32}
    (h : nextFrom ids n = some id) :
    id ∈ ids ∧ n ≤ id.toNat
      ∧ ∀ i ∈ ids, n ≤ i.toNat → id.toNat ≤ i.toNat := by
  unfold nextFrom at h
  simp only at h
  split at h
  · next hne =>
    rw [Option.some.injEq] at h
    have hmin := Finset.min'_mem _ hne
    obtain ⟨i, hi, htoNat⟩ := Finset.mem_image.1 hmin
    obtain ⟨hids, hn⟩ := Finset.mem_filter.1 hi
    rw [← htoNat, UInt32.ofNat_toNat] at h
    subst h
    refine ⟨hids, hn, fun j hj hnj => ?_⟩
    rw [htoNat]
    apply Finset.min'_le
    exact Finset.mem_image_of_mem _ (Finset.mem_filter.2 ⟨hj, hnj⟩)
  · cases h

-- ========================================================== the collector

/-- The store of the scan after the ids `used`, newest first, have been
entered: those the collector no longer tracks are gone. -/
structure Entered (s₀ : ChunkStore) (size : Nat) (used : List UInt32)
    (s : ChunkStore) : Prop where
  tracks : s.collector.Tracks used
  size : s.collector.size = size
  sorted : used.Pairwise fun i j => j.toNat < i.toNat
  fileOf : ∀ i, s.fileOf i
    = if i ∈ used → i ∈ s.collector.ids then s₀.fileOf i else none
  inStore : ∀ i, i ∈ s.inStore
    ↔ i ∈ s₀.inStore ∧ (i ∈ used → i ∈ s.collector.ids)
  files : ∀ p content, s.files p = some content → s₀.files p = some content

variable {s₀ s : ChunkStore} {size : Nat} {used : List UInt32} {io : Io}
  {id : UInt32}

/-- Before the loop nothing is entered. -/
theorem entered_start (htracks : s₀.collector.Tracks [])
    (hsize : s₀.collector.size = size) : Entered s₀ size [] s₀ :=
  ⟨htracks, hsize, List.Pairwise.nil,
    fun _ => (if_pos fun hi => absurd hi List.not_mem_nil).symm,
    fun _ => (and_iff_left fun hi => absurd hi List.not_mem_nil).symm,
    fun _ _ hp => hp⟩

/-- One more id is entered, larger than those before. -/
theorem Entered.touch (h : Entered s₀ size used s)
    (hlisted : ∀ i, i ∈ s₀.inStore ↔ (s₀.fileOf i).isSome)
    (hio : io.unlinkFails = false) (hnew : ∀ i ∈ used, i.toNat < id.toNat) :
    ∃ t, s.touch io id = some t ∧ Entered s₀ size (id :: used) t := by
  obtain ⟨t, htouch, htracks, hsize, hevicts⟩ := touch_tracks h.tracks hio id
  have hids := h.tracks.mem_ids_update htracks hsize
  have hself : id ∉ used := fun hid => Nat.lt_irrefl _ (hnew id hid)
  generalize hgone : Recency.evicted s.collector.size s.collector.ids id
    = gone at hevicts hids
  have hne : gone ≠ some id := fun heq =>
    Recency.evicted_ne (hgone.trans heq) rfl
  -- what is evicted has been entered
  have hused : ∀ i, gone = some i → i ∈ used ∧ i ∈ s.collector.ids := by
    intro i hi
    have hmem := Recency.evicted_mem (hgone.trans hi)
    exact ⟨(h.tracks.mem_ids.1 hmem).1, hmem⟩
  have hkept : ∀ i, (i ∈ id :: used → i ∈ t.collector.ids)
      ↔ (i ∈ used → i ∈ s.collector.ids) ∧ gone ≠ some i := by
    intro i
    rw [hids, List.mem_cons]
    by_cases heq : i = id
    · rw [heq]
      exact iff_of_true (fun _ => .inl rfl)
        ⟨fun hid => absurd hid hself, hne⟩
    · simp only [heq, false_or]
      constructor
      · intro hi
        refine ⟨fun hu => (hi hu).1, fun hg => ?_⟩
        exact (hi (hused i hg).1).2 hg
      · exact fun hi hu => ⟨hi.1 hu, hi.2⟩
  have hfile : ∀ i, gone = some i → s.fileOf i = s₀.fileOf i := by
    intro i hi
    rw [h.fileOf, if_pos fun _ => (hused i hi).2]
  refine ⟨t, htouch, htracks, hsize.trans h.size,
    List.pairwise_cons.2 ⟨hnew, h.sorted⟩, fun i => ?_, fun i => ?_,
    fun p content hp => h.files p content (hevicts.files p content hp)⟩
  · rw [hevicts.fileOf, h.fileOf]
    by_cases hi : gone = some i
    · rw [if_pos hi, if_neg fun hk => ((hkept i).1 hk).2 hi]
    · rw [if_neg hi]
      refine if_congr ?_ rfl rfl
      rw [hkept]
      exact (and_iff_left hi).symm
  · rw [hevicts.inStore, h.inStore, hkept, and_assoc]
    refine and_congr_right fun hi => and_congr_right fun _ => ?_
    refine ⟨fun hnone heq => ?_, fun hnot heq => absurd heq hnot⟩
    have hsome := (hlisted i).1 hi
    rw [← hfile i heq, hnone heq] at hsome
    cases hsome

/-- With each id there are fewer to come. -/
theorem card_filter_succ_lt {ids : Finset UInt32} {n : Nat} (hid : id ∈ ids)
    (hn : n ≤ id.toNat) :
    (ids.filter fun i => id.toNat + 1 ≤ i.toNat).card
      < (ids.filter fun i => n ≤ i.toNat).card := by
  apply Finset.card_lt_card
  rw [Finset.ssubset_iff_of_subset]
  · refine ⟨id, Finset.mem_filter.2 ⟨hid, hn⟩, fun hmem => ?_⟩
    exact Nat.not_succ_le_self _ (Finset.mem_filter.1 hmem).2
  · intro i hi
    obtain ⟨hi, hlt⟩ := Finset.mem_filter.1 hi
    exact Finset.mem_filter.2 ⟨hi, by omega⟩

/-- What is still to come has not been erased. -/
theorem Entered.mem_inStore (h : Entered s₀ size used s) {n : Nat}
    (hused : ∀ i, i ∈ used ↔ i ∈ s₀.inStore ∧ i.toNat < n)
    (hid : id ∈ s₀.inStore) (hn : n ≤ id.toNat) : id ∈ s.inStore := by
  refine (h.inStore id).2 ⟨hid, fun hin => ?_⟩
  have := ((hused id).1 hin).2
  omega

/-- When the iterator is at the end, all have been entered. -/
theorem Entered.mem_used (h : Entered s₀ size used s) {n : Nat}
    (hused : ∀ i, i ∈ used ↔ i ∈ s₀.inStore ∧ i.toNat < n)
    (hnext : nextFrom s.inStore n = none) :
    ∀ i, i ∈ used ↔ i ∈ s₀.inStore := by
  intro i
  rw [hused]
  refine and_iff_left_of_imp fun hi => ?_
  by_contra hge
  exact hge (nextFrom_none hnext (h.mem_inStore hused hi (Nat.not_lt.1 hge)))

/-- The loop enters all ids, and never moves on from one that has been
erased. -/
theorem enter_spec {ios : UInt32 → Io}
    (hlisted : ∀ i, i ∈ s₀.inStore ↔ (s₀.fileOf i).isSome)
    (hios : ∀ id, (ios id).unlinkFails = false) (fuel : Nat) :
    ∀ (n : Nat) (used : List UInt32) (s : ChunkStore),
      Entered s₀ size used s →
      (∀ i, i ∈ used ↔ i ∈ s₀.inStore ∧ i.toNat < n) →
      (s₀.inStore.filter fun i => n ≤ i.toNat).card ≤ fuel →
      ∃ t used', enter ios fuel (nextFrom s.inStore n) s = some t
        ∧ Entered s₀ size used' t ∧ ∀ i, i ∈ used' ↔ i ∈ s₀.inStore := by
  induction fuel with
  | zero =>
      intro n used s h hused hfuel
      cases hnext : nextFrom s.inStore n with
      | none => exact ⟨s, used, rfl, h, h.mem_used hused hnext⟩
      | some id =>
          -- there would be one more to enter
          obtain ⟨hid, hge, -⟩ := nextFrom_some hnext
          have := card_filter_succ_lt ((h.inStore id).1 hid).1 hge
          omega
  | succ fuel ih =>
      intro n used s h hused hfuel
      cases hnext : nextFrom s.inStore n with
      | none => exact ⟨s, used, rfl, h, h.mem_used hused hnext⟩
      | some id =>
          obtain ⟨hid, hge, hleast⟩ := nextFrom_some hnext
          have hid₀ := ((h.inStore id).1 hid).1
          have hfewer := card_filter_succ_lt hid₀ hge
          obtain ⟨t, htouch, ht⟩ := h.touch hlisted (hios id) fun i hi =>
            Nat.lt_of_lt_of_le ((hused i).1 hi).2 hge
          have hused' : ∀ i, i ∈ id :: used
              ↔ i ∈ s₀.inStore ∧ i.toNat < id.toNat + 1 := by
            intro i
            rw [List.mem_cons, hused]
            constructor
            · rintro (rfl | ⟨hi, hlt⟩)
              · exact ⟨hid₀, Nat.lt_succ_self _⟩
              · exact ⟨hi, by omega⟩
            · rintro ⟨hi, hlt⟩
              by_cases hin : i.toNat < n
              · exact .inr ⟨hi, hin⟩
              · have hn := Nat.not_lt.1 hin
                have hle := hleast i (h.mem_inStore hused hi hn) hn
                exact .inl (UInt32.toNat_inj.1 (by omega))
          -- the element of the iterator is the one just used
          have hstill : id ∈ t.inStore :=
            (ht.inStore id).2 ⟨hid₀, fun _ => ht.tracks.head_mem⟩
          obtain ⟨t', used', henter, ht', hall⟩ :=
            ih (id.toNat + 1) _ t ht hused' (by omega)
          refine ⟨t', used', ?_, ht', hall⟩
          rw [enter]
          simp only [htouch, if_pos hstill]
          exact henter

-- ================================================================ the result

/-- What a restart makes of the chunks `ids` that were left with the
contents `left`: with room for all it has them all, else the largest; these
read back, and the other files are gone. -/
structure Recovers (size : Nat) (left : UInt32 → Option Bytes)
    (ids : Finset UInt32) (s : ChunkStore) : Prop where
  few : ids.card ≤ size → s.available = ids
  many : size < ids.card → s.available ⊆ ids ∧ s.available.card = size
    ∧ ∀ i ∈ s.available, ∀ j ∈ ids, j ∉ s.available → j.toNat < i.toNat
  reads : ∀ io id, io.AllOk → id ∈ s.available →
    ∃ content t, left id = some content
      ∧ s.readChunk io id = some (.ok content, t)
  files : ∀ p, (s.files p).isSome → ∃ id ∈ s.available, p = idToPath id

/-- Once all are entered the collector tracks the largest. -/
theorem Entered.recovers (h : Entered s₀ size used s)
    (hlisted : ∀ i, i ∈ s₀.inStore ↔ (s₀.fileOf i).isSome)
    (hall : ∀ i, i ∈ used ↔ i ∈ s₀.inStore) (hleft : LeftBehind s₀.files) :
    Recovers size s₀.fileOf s₀.inStore s := by
  have hnodup : used.Nodup := h.sorted.imp fun hlt heq => by
    rw [heq] at hlt
    exact Nat.lt_irrefl _ hlt
  have hids : s.collector.ids = used.take size := by
    rw [h.tracks.ids, Recency.recents_of_nodup hnodup, h.size]
  have hfinset : used.toFinset = s₀.inStore := by
    ext i
    rw [List.mem_toFinset, hall]
  have hcard : used.length = s₀.inStore.card := by
    rw [← hfinset, List.toFinset_card_of_nodup hnodup]
  have havail : ∀ i, i ∈ s.available ↔ i ∈ used.take size := by
    intro i
    rw [← hids]
    refine (h.inStore i).trans ?_
    rw [← hall]
    refine ⟨fun hi => hi.2 hi.1, fun hi => ⟨?_, fun _ => hi⟩⟩
    rw [hids] at hi
    exact List.mem_of_mem_take hi
  have hsub : s.available ⊆ s₀.inStore := by
    intro i hi
    exact (hall i).1 (List.mem_of_mem_take ((havail i).1 hi))
  have hsize : s.available.card = min size s₀.inStore.card := by
    have heq : s.available = (used.take size).toFinset := by
      ext i
      rw [List.mem_toFinset, havail]
    rw [heq, List.toFinset_card_of_nodup (hnodup.sublist
      (List.take_sublist _ _)), List.length_take, hcard]
  have hfile : ∀ i ∈ s.available, s.fileOf i = s₀.fileOf i := by
    intro i hi
    rw [h.fileOf, if_pos fun _ => ?_]
    rw [hids]
    exact (havail i).1 hi
  refine ⟨fun hfew => ?_, fun hmany => ⟨hsub, ?_, ?_⟩, ?_, ?_⟩
  · apply Finset.eq_of_subset_of_card_le hsub
    omega
  · omega
  · intro i hi j hj hnot
    rw [havail] at hi hnot
    rw [← hall, ← List.take_append_drop size used, List.mem_append] at hj
    have hpair := h.sorted
    rw [← List.take_append_drop size used, List.pairwise_append] at hpair
    exact hpair.2.2 i hi j (hj.resolve_left hnot)
  · intro io id hio hid
    obtain ⟨content, hcontent⟩ :=
      Option.isSome_iff_exists.1 ((hlisted id).1 (hsub hid))
    obtain ⟨i, -, hlen⟩ := hleft _ content hcontent
    obtain ⟨t, htouch, -⟩ := touch_tracks h.tracks hio.unlink id
    exact ⟨content, t, hcontent, readChunk_touch hio
      ((hfile id hid).trans hcontent) hlen htouch⟩
  · intro p hp
    obtain ⟨content, hcontent⟩ := Option.isSome_iff_exists.1 hp
    obtain ⟨id, rfl, -⟩ := hleft p content (h.files p content hcontent)
    refine ⟨id, ?_, rfl⟩
    -- a file is listed, and only tracked chunks have kept theirs
    have hfile' : s.fileOf id = some content := hcontent
    rw [h.fileOf] at hfile'
    refine (h.inStore id).2 ⟨(hlisted id).2 ?_, ?_⟩
    · split at hfile'
      · rw [hfile']
        rfl
      · cases hfile'
    · by_contra hnot
      rw [if_neg hnot] at hfile'
      cases hfile'

/-- The constructor enters all ids of the files. -/
theorem construct_entered {d : Listing} {ios : UInt32 → Io}
    {left : ChunkStore} (hsize : 0 < size) (hleft : LeftBehind left.files)
    (hshows : Shows d left.files)
    (hios : ∀ id, (ios id).unlinkFails = false) :
    ∃ s used, construct d ios size left.files = some s
      ∧ Entered { files := left.files, inStore := scan d
                  collector := .new size } size used s
      ∧ ∀ i, i ∈ used ↔ i ∈ scan d := by
  generalize hs₀ : ({ files := left.files, inStore := scan d
                      collector := .new size } : ChunkStore) = s₀
  have hin : s₀.inStore = scan d := by rw [← hs₀]
  have hlisted : ∀ i, i ∈ s₀.inStore ↔ (s₀.fileOf i).isSome := by
    intro i
    rw [← hs₀]
    exact mem_scan hleft hshows i
  have hstart : Entered s₀ size [] s₀ := by
    apply entered_start
    · rw [← hs₀]
      exact LruCollector.tracks_new hsize
    · rw [← hs₀]
      rfl
  obtain ⟨t, used, henter, ht, hall⟩ := enter_spec hlisted hios
    s₀.inStore.card 0 [] s₀ hstart (fun i => by simp)
    (Finset.card_filter_le _ _)
  rw [hin] at henter hall
  refine ⟨t, used, ?_, ht, hall⟩
  unfold construct
  simp only [hs₀]
  exact henter

/-- The constructor recovers what was left behind. -/
theorem construct_recovers {d : Listing} {ios : UInt32 → Io}
    {left : ChunkStore} (hsize : 0 < size) (hleft : LeftBehind left.files)
    (hshows : Shows d left.files) (hios : ∀ id, (ios id).AllOk) :
    ∃ s, construct d ios size left.files = some s
      ∧ Recovers size left.fileOf (scan d) s := by
  obtain ⟨t, used, hconstruct, ht, hall⟩ :=
    construct_entered hsize hleft hshows fun id => (hios id).unlink
  exact ⟨t, hconstruct, ht.recovers (mem_scan hleft hshows) hall hleft⟩

-- ====================================================== what is left behind

/-- No more is written than there is. -/
theorem length_written_le (buffer : Bytes) :
    ∀ script, (writeLoop script buffer).written.length ≤ buffer.length := by
  induction hlen : buffer.length using Nat.strong_induction_on
    generalizing buffer with
  | _ n ih =>
      intro script
      rw [writeLoop]
      rcases answer script buffer.length with ⟨_ | k, script'⟩
      · exact Nat.zero_le _
      · simp only
        split
        · next hgo =>
          have hrest := ih (buffer.drop k).length
            (by rw [List.length_drop]; omega) (buffer.drop k) rfl script'
          rw [List.length_drop] at hrest
          show (buffer.take k ++ _).length ≤ n
          rw [List.length_append, List.length_take]
          omega
        · show (buffer.take k).length ≤ n
          rw [List.length_take]
          omega

/-- A use of a chunk adds no file. -/
theorem files_touch {t : ChunkStore} (h : s.touch io id = some t)
    {p : ChunkPath} {content : Bytes} (hp : t.files p = some content) :
    s.files p = some content := by
  unfold touch at h
  cases hupdate : s.collector.update id with
  | none =>
      simp only [hupdate] at h
      cases h
  | some r =>
      obtain ⟨collector, last⟩ := r
      simp only [hupdate] at h
      cases last with
      | none =>
          rw [Option.some.injEq] at h
          rw [← h] at hp
          exact hp
      | some last =>
          simp only [Option.some.injEq] at h
          rw [← h] at hp
          exact files_removeChunk (s := { s with collector := collector }) hp

/-- A write makes no file but its own, no longer than the buffer. -/
theorem files_writeChunk {t : ChunkStore} {buffer : Bytes} {err : ErrorCode}
    (h : s.writeChunk io id buffer = some (err, t)) {p : ChunkPath}
    {content : Bytes} (hp : t.files p = some content) :
    s.files p = some content
      ∨ p = idToPath id ∧ content.length ≤ buffer.length := by
  have hset : ∀ written : Bytes, written.length ≤ buffer.length →
      (s.setFile id (some written)).files p = some content →
      s.files p = some content
        ∨ p = idToPath id ∧ content.length ≤ buffer.length := by
    intro written hle hfile
    have hfile' : (if p = idToPath id then some written else s.files p)
        = some content := hfile
    split at hfile'
    · next hpath =>
      rw [Option.some.injEq] at hfile'
      exact .inr ⟨hpath, by rw [← hfile']; exact hle⟩
    · exact .inl hfile'
  have hwritten := length_written_le buffer io.script
  unfold writeChunk at h
  split at h
  · rw [Option.some.injEq, Prod.mk.injEq] at h
    rw [h.2]
    exact .inl hp
  · split at h
    · rw [Option.some.injEq, Prod.mk.injEq] at h
      rw [h.2]
      exact .inl hp
    · simp only at h
      split at h
      · rw [Option.some.injEq, Prod.mk.injEq] at h
        rw [← h.2] at hp
        exact hset _ hwritten hp
      · split at h
        · cases h
        · next t' htouch =>
          rw [Option.some.injEq, Prod.mk.injEq] at h
          rw [← h.2] at hp
          exact hset _ hwritten (files_touch htouch hp)

/-- A read makes no file. -/
theorem files_readChunk {t : ChunkStore} {x : Except ErrorCode Bytes}
    (h : s.readChunk io id = some (x, t)) {p : ChunkPath} {content : Bytes}
    (hp : t.files p = some content) : s.files p = some content := by
  unfold readChunk at h
  split at h
  · rw [Option.some.injEq, Prod.mk.injEq] at h
    rw [h.2]
    exact hp
  · split at h
    · rw [Option.some.injEq, Prod.mk.injEq] at h
      rw [h.2]
      exact hp
    · split at h
      · cases h
      · next t' htouch =>
        simp only at h
        split at h
        · rw [Option.some.injEq, Prod.mk.injEq] at h
          rw [← h.2] at hp
          exact files_touch htouch hp
        · rw [Option.some.injEq, Prod.mk.injEq] at h
          rw [← h.2] at hp
          exact files_touch htouch hp

end ChunkStore

/-- What is written is at most a chunk. -/
def StoreCall.Bounded : StoreCall → Prop
  | .write _ _ buffer => buffer.length ≤ chunkSizeBytes
  | .read _ _ | .remove _ _ => True

namespace ChunkStore

variable {left s : ChunkStore} {size : Nat}

/-- Whatever way a call ends, it leaves files of chunks behind. -/
theorem leftBehind_step {t : ChunkStore} {c : StoreCall} (hc : c.Bounded)
    (hleft : LeftBehind s.files) (h : s.step c = some t) :
    LeftBehind t.files := by
  intro p content hp
  unfold step at h
  cases hperform : s.perform c with
  | none =>
      simp only [hperform] at h
      cases h
  | some r =>
      obtain ⟨err, t'⟩ := r
      simp only [hperform, Option.some.injEq] at h
      subst h
      cases c with
      | write io id buffer =>
          rcases files_writeChunk hperform hp with hold | ⟨hpath, hlen⟩
          · exact hleft p content hold
          · exact ⟨id, hpath, Nat.le_trans hlen hc⟩
      | read io id =>
          apply hleft p content
          rcases hread : s.readChunk io id with _ | ⟨x | x, u⟩
          · simp only [perform, hread] at hperform
            cases hperform
          · simp only [perform, hread, Option.some.injEq, Prod.mk.injEq]
              at hperform
            rw [← hperform.2] at hp
            exact files_readChunk hread hp
          · simp only [perform, hread, Option.some.injEq, Prod.mk.injEq]
              at hperform
            rw [← hperform.2] at hp
            exact files_readChunk hread hp
      | remove io id =>
          have hremove : (s.removeChunk io id).2 = t' :=
            congrArg Prod.snd (Option.some.inj hperform)
          apply hleft p content
          rw [← hremove] at hp
          exact files_removeChunk hp

/-- A restart over what any calls of a store have left behind: the chunks
are all there, or those with the largest ids if there is no room for
all. -/
theorem restart_recovers {calls : List StoreCall} {ids : Finset UInt32}
    {d : Listing} {ios : UInt32 → Io} (hsize : 0 < size)
    (hstart : LeftBehind s.files) (hbounded : ∀ c ∈ calls, c.Bounded)
    (hrun : Machine.run step s calls = some left)
    (hids : ∀ id, id ∈ ids ↔ (left.fileOf id).isSome)
    (hshows : Shows d left.files) (hios : ∀ id, (ios id).AllOk) :
    (∀ id, Parses (idToPath id).name id)
      ∧ ∃ t, construct d ios size left.files = some t
        ∧ Recovers size left.fileOf ids t := by
  have hleft : LeftBehind left.files :=
    Machine.run_invariant_of_mem calls
      (P := fun s => LeftBehind s.files)
      (fun c hc _ _ => leftBehind_step (hbounded c hc)) s left hstart hrun
  obtain ⟨t, hconstruct, hrecovers⟩ :=
    construct_recovers hsize hleft hshows hios
  have hscan : scan d = ids := by
    ext id
    rw [mem_scan hleft hshows, hids]
  rw [hscan] at hrecovers
  exact ⟨parses_name, t, hconstruct, hrecovers⟩

/-- A listing of the directories of these chunks. -/
def listingOf (ids : List UInt32) : Listing :=
  { base := some ([46] :: [46, 46] :: ids.map fun id => (idToPath id).outer)
    outer := fun outer => some ([46, 46] :: [46]
      :: (ids.filter fun id => (idToPath id).outer = outer).map
        fun id => (idToPath id).inner)
    inner := fun outer inner => some ((ids.filter fun id =>
      (idToPath id).outer = outer ∧ (idToPath id).inner = inner).map
        fun id => (idToPath id).name) }

/-- A directory in which each id has its file. -/
theorem shows_listingOf {ids : List UInt32}
    {files : ChunkPath → Option Bytes}
    (h : ∀ p, (files p).isSome ↔ ∃ id ∈ ids, p = idToPath id) :
    Shows (listingOf ids) files := by
  refine ⟨fun p hp => ?_, fun p names _ _ hopen hname _ => ?_⟩
  · obtain ⟨id, hid, rfl⟩ := (h p).1 hp
    refine ⟨⟨_, rfl, ?_⟩, ⟨_, rfl, ?_⟩, _, rfl, ?_⟩
    · apply List.mem_cons_of_mem
      apply List.mem_cons_of_mem
      exact List.mem_map_of_mem hid
    · apply List.mem_cons_of_mem
      apply List.mem_cons_of_mem
      exact List.mem_map_of_mem (List.mem_filter.2 ⟨hid, by simp⟩)
    · exact List.mem_map_of_mem (List.mem_filter.2 ⟨hid, by simp⟩)
  · rw [listingOf, Option.some.injEq] at hopen
    rw [← hopen] at hname
    obtain ⟨id, hid, hsame⟩ := List.mem_map.1 hname
    obtain ⟨hin, hpath⟩ := List.mem_filter.1 hid
    rw [decide_eq_true_iff] at hpath
    refine (h p).2 ⟨id, hin, ?_⟩
    obtain ⟨outer, inner, name⟩ := p
    obtain ⟨houter, hinner⟩ := hpath
    simp only at houter hinner hsame
    rw [← houter, ← hinner, ← hsame]

/-- A directory with two chunks. -/
def twoLeft : ChunkStore :=
  { new 2 with files := fun p =>
      if p = idToPath 3 then some [10]
      else if p = idToPath 259 then some [20, 30] else none }

/-- Two chunks, of which a store with room for one recovers the second. -/
theorem restart_two_chunks :
    (∀ id, Parses (idToPath id).name id)
      ∧ ∃ t, construct (listingOf [3, 259]) (fun _ => {}) 1 twoLeft.files
          = some t
        ∧ Recovers 1 twoLeft.fileOf {3, 259} t := by
  have hfiles : ∀ p, (twoLeft.files p).isSome
      ↔ ∃ id ∈ ([3, 259] : List UInt32), p = idToPath id := by
    intro p
    show (if p = idToPath 3 then some [10]
      else if p = idToPath 259 then some [20, 30] else none).isSome ↔ _
    split
    · next h => simp [h]
    · split
      · next h => simp [h]
      · next h h' => simp [h, h']
  have hleft : LeftBehind twoLeft.files := by
    intro p content hp
    have hp' : (if p = idToPath 3 then some [10]
      else if p = idToPath 259 then some [20, 30] else none)
        = some content := hp
    split at hp'
    · next h =>
      rw [Option.some.injEq] at hp'
      exact ⟨3, h, by rw [← hp']; decide⟩
    · split at hp'
      · next h =>
        rw [Option.some.injEq] at hp'
        exact ⟨259, h, by rw [← hp']; decide⟩
      · cases hp'
  have hids : ∀ id, id ∈ ({3, 259} : Finset UInt32)
      ↔ (twoLeft.fileOf id).isSome := by
    intro id
    rw [fileOf, hfiles]
    constructor
    · intro hid
      exact ⟨id, by simpa using hid, rfl⟩
    · rintro ⟨i, hi, hpath⟩
      rw [idToPath_inj hpath]
      simpa using hi
  have hio : Io.AllOk {} := ⟨rfl, rfl, rfl, by simp⟩
  exact restart_recovers Nat.one_pos hleft
    (fun c hc => absurd hc List.not_mem_nil) rfl hids (shows_listingOf hfiles)
    fun _ => hio

end ChunkStore

end Distfs

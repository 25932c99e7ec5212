/-
The size protocol of `list_xattr`.

# The loop

The names go to the buffer one behind the other, and `buff_size` counts
down what is left of it. It also is the flag of a size query: with zero
left the loop only adds up lengths. `listXattrFrom_query`,
`listXattrFrom_whole` and `listXattrFrom_cut` are its three ways to go:
nothing left, enough left for all names, too little left.

# The slip

A buffer that the first names fill to the last byte turns into a query
in the middle (`EndsInside`). The call then answers OK, with a length
that is larger than the buffer. For every other size the protocol is
kept, as long as the length is one that `ssize_t` can hold.
-/
import Distfs.Meta.Xattrs

namespace Distfs

namespace MetaFileSystem

open MetaFSBuilder

-- ========================================================== the names

/-- The node at `n` has these names of extended attributes. -/
structure XattrNames (m : Mem) (n : Nat) (names : List Bytes) : Prop where
  count : Node.xattrsCount m n = names.length
  listed : Names m (n + nodeSize) names
  short : ∀ s ∈ names, s.length + 1 < 2 ^ 64

/-- The names with their terminators. -/
def terminated (names : List Bytes) : List Bytes := names.map (· ++ [0])

/-- All names with their terminators. -/
theorem length_terminated (names : List Bytes) :
    (terminated names).flatten.length = namesBody names := by
  induction names with
  | nil => rfl
  | cons s names ih =>
      rw [terminated, List.map_cons, List.flatten_cons, List.length_append,
        ← terminated, ih]
      simp [namesBody]

theorem namesBody_cons (s : Bytes) (names : List Bytes) :
    namesBody (s :: names) = s.length + 1 + namesBody names := by
  simp [namesBody]

/-- Some but not all of the names fill a buffer of this size exactly. -/
def EndsInside (names : List Bytes) (buffSize : Nat) : Prop :=
  ∃ j, 0 < j ∧ j < names.length ∧ namesBody (names.take j) = buffSize

/-- Without names nothing ends inside. -/
theorem not_endsInside_nil {buffSize : Nat} : ¬ EndsInside [] buffSize := by
  intro ⟨j, _, hj, _⟩
  exact absurd hj (Nat.not_lt_zero j)

/-- A name takes a byte at least. -/
theorem namesBody_pos {names : List Bytes} (h : names ≠ []) :
    0 < namesBody names := by
  cases names with
  | nil => exact absurd rfl h
  | cons s names =>
      rw [namesBody_cons]
      omega

/-- The first name with the rest, seen from the first one. -/
theorem endsInside_cons {s : Bytes} {names : List Bytes} {buffSize : Nat} :
    EndsInside (s :: names) buffSize
      ↔ names ≠ [] ∧ s.length + 1 ≤ buffSize
        ∧ (buffSize - (s.length + 1) = 0
          ∨ EndsInside names (buffSize - (s.length + 1))) := by
  constructor
  · intro ⟨j, hpos, hlt, htotal⟩
    obtain ⟨j, rfl⟩ := Nat.exists_eq_succ_of_ne_zero (Nat.ne_of_gt hpos)
    rw [List.length_cons] at hlt
    rw [List.take_succ_cons, namesBody_cons] at htotal
    refine ⟨fun hnil => ?_, by omega, ?_⟩
    · rw [hnil, List.length_nil] at hlt
      omega
    · rcases Nat.eq_zero_or_pos j with rfl | hj
      · left
        have hzero : namesBody (names.take 0) = 0 := rfl
        omega
      · exact .inr ⟨j, hj, by omega, by omega⟩
  · intro ⟨hne, hle, hrest⟩
    have hlen := List.length_pos_iff.2 hne
    rcases hrest with hzero | ⟨j, hpos, hlt, htotal⟩
    · refine ⟨1, by omega, by rw [List.length_cons]; omega, ?_⟩
      rw [List.take_succ_cons, namesBody_cons]
      show s.length + 1 + 0 = buffSize
      omega
    · refine ⟨j + 1, by omega, by rw [List.length_cons]; omega, ?_⟩
      rw [List.take_succ_cons, namesBody_cons]
      omega

/-- A size that ends inside is neither zero nor enough. -/
theorem EndsInside.bounds {names : List Bytes} {buffSize : Nat}
    (h : EndsInside names buffSize) :
    0 < buffSize ∧ buffSize < namesBody names := by
  induction names generalizing buffSize with
  | nil => exact absurd h not_endsInside_nil
  | cons s names ih =>
      obtain ⟨hne, hle, hrest⟩ := endsInside_cons.1 h
      rw [namesBody_cons]
      refine ⟨by omega, ?_⟩
      rcases hrest with hzero | hrest
      · have := namesBody_pos hne
        omega
      · have := (ih hrest).2
        omega

-- =========================================================== the loop

/-- The value of `*length` when this many bytes have been added. -/
def counted (total : Nat) : Int := toInt64 (usize total)

/-- The length wraps as the sum does. -/
theorem counted_add (total res : Nat) :
    toInt64 (usize (toUint64 (counted total) + res))
      = counted (total + res) := by
  have hback : toUint64 (counted total) = usize total := by
    unfold counted toUint64 toInt64 usize
    split
    · omega
    · omega
  rw [hback, counted]
  congr 1
  unfold usize
  omega

/-- The length is the total as long as a `ssize_t` can hold that. -/
theorem counted_eq_iff {total : Nat} :
    counted total = (total : Int) ↔ total < 2 ^ 63 := by
  unfold counted toInt64 usize
  split
  · omega
  · omega

/-- The names stand in the image where the entries from `i` on point. -/
def NamesFrom (m : Mem) (ents i : Nat) (names : List Bytes) : Prop :=
  ∀ k s, names[k]? = some s →
    (0 ∉ s ∧ m.CStr (Entry.nameOffset m ents (i + k)) s)
      ∧ s.length + 1 < 2 ^ 64

section Loop

variable {m : Mem} {ents : Nat}

/-- The names behind the first one. -/
theorem NamesFrom.tail {i : Nat} {s : Bytes} {names : List Bytes}
    (h : NamesFrom m ents i (s :: names)) :
    NamesFrom m ents (i + 1) names := by
  intro k t ht
  have hk := h (k + 1) t ht
  rw [show i + (k + 1) = i + 1 + k by omega] at hk
  exact hk

/-- One turn of the loop. -/
theorem listXattrFrom_cons {i : Nat} {s : Bytes} {names : List Bytes}
    (h : NamesFrom m ents i (s :: names)) (k buffSize list total : Nat) :
    listXattrFrom m ents (k + 1) i buffSize list (counted total)
      = if buffSize = 0 then
          listXattrFrom m ents k (i + 1) buffSize list
            (counted (total + (s.length + 1)))
        else if buffSize < s.length + 1 then
          some { err := .tooLong
                 length := some (counted (total + (s.length + 1)))
                 stores := [] }
        else
          (listXattrFrom m ents k (i + 1) (buffSize - (s.length + 1))
              (list + (s.length + 1))
              (counted (total + (s.length + 1)))).map fun r =>
            { r with stores :=
                { pos := list, bytes := s ++ [0] } :: r.stores } := by
  obtain ⟨⟨h0, hstr⟩, hshort⟩ := h 0 s rfl
  rw [Nat.add_zero] at hstr
  have hres : usize (s.length + 1) = s.length + 1 := usize_of_lt hshort
  have hcopy : m.strncpyFrom (Entry.nameOffset m ents i) (s.length + 1)
      = s ++ [0] := by
    rw [hstr.strncpyFrom h0, Mem.strncpyBytes_eq h0]
  rw [listXattrFrom, hstr.strlen h0 (by omega)]
  simp only [hres, counted_add, hcopy]
  split
  · rfl
  · split
    · rfl
    · cases listXattrFrom m ents k (i + 1) (buffSize - (s.length + 1))
        (list + (s.length + 1)) (counted (total + (s.length + 1))) with
      | none => rfl
      | some r => rfl

/-- With nothing left the loop adds up the lengths. -/
theorem listXattrFrom_query (names : List Bytes) :
    ∀ (i list total : Nat), NamesFrom m ents i names →
      listXattrFrom m ents names.length i 0 list (counted total)
        = some { err := .ok
                 length := some (counted (total + namesBody names))
                 stores := [] } := by
  induction names with
  | nil => exact fun i list total _ => rfl
  | cons s names ih =>
      intro i list total h
      rw [List.length_cons, listXattrFrom_cons h, if_pos rfl,
        ih (i + 1) list _ h.tail, namesBody_cons, Nat.add_assoc]

/-- With enough left all names go to the buffer. -/
theorem listXattrFrom_whole (names : List Bytes) :
    ∀ (i buffSize list total : Nat), NamesFrom m ents i names →
      namesBody names ≤ buffSize →
      listXattrFrom m ents names.length i buffSize list (counted total)
        = some { err := .ok
                 length := some (counted (total + namesBody names))
                 stores := Mem.consecutive list (terminated names) } := by
  induction names with
  | nil => exact fun i buffSize list total _ _ => rfl
  | cons s names ih =>
      intro i buffSize list total h hfits
      rw [namesBody_cons] at hfits
      rw [List.length_cons, listXattrFrom_cons h, if_neg (by omega),
        if_neg (by omega), ih (i + 1) _ _ _ h.tail (by omega), namesBody_cons,
        Nat.add_assoc]
      simp [terminated, Mem.consecutive]

/-- With too little left the loop stops inside the buffer, unless the
names fill it exactly before they end. -/
theorem listXattrFrom_cut (names : List Bytes) :
    ∀ (i buffSize list total : Nat), NamesFrom m ents i names →
      0 < buffSize → buffSize < namesBody names →
      ∃ r, listXattrFrom m ents names.length i buffSize list (counted total)
          = some r
        ∧ (∀ a, Mem.Touches r.stores a → a < list + buffSize)
        ∧ (EndsInside names buffSize → r.err = .ok)
        ∧ (¬ EndsInside names buffSize → r.err = .tooLong) := by
  induction names with
  | nil =>
      intro i buffSize list total _ _ hlt
      exact absurd hlt (Nat.not_lt_zero _)
  | cons s names ih =>
      intro i buffSize list total h hpos hlt
      rw [namesBody_cons] at hlt
      rw [List.length_cons, listXattrFrom_cons h, if_neg (by omega)]
      split
      · next hlong =>
        refine ⟨_, rfl, fun a ha => ?_, fun hinside => ?_, fun _ => rfl⟩
        · obtain ⟨w, hw, -⟩ := ha
          exact absurd hw List.not_mem_nil
        · have := (endsInside_cons.1 hinside).2.1
          omega
      · next hshort =>
        have hne : names ≠ [] := fun hnil => by
          rw [hnil] at hlt
          exact hshort hlt
        have htouch : ∀ (r : XattrReply) (a : Nat),
            (Mem.Touches r.stores a → a < list + buffSize) →
            Mem.Touches ({ pos := list, bytes := s ++ [0] } :: r.stores) a →
            a < list + buffSize := by
          intro r a hr ha
          rw [Mem.touches_cons] at ha
          rcases ha with ⟨-, ha⟩ | ha
          · rw [List.length_append, List.length_singleton] at ha
            exact Nat.lt_of_lt_of_le ha (by simp only; omega)
          · exact hr ha
        rcases Nat.eq_zero_or_pos (buffSize - (s.length + 1))
          with hzero | hmore
        · -- the name took the last byte: the rest is a query
          rw [hzero, listXattrFrom_query names _ _ _ h.tail]
          have hinside : EndsInside (s :: names) buffSize :=
            endsInside_cons.2 ⟨hne, by omega, .inl hzero⟩
          refine ⟨_, rfl, fun a ha => ?_, fun _ => rfl, fun hnot => ?_⟩
          · refine htouch { err := .ok, length := none, stores := [] } a ?_ ha
            intro ⟨w, hw, _⟩
            exact absurd hw List.not_mem_nil
          · exact absurd hinside hnot
        · obtain ⟨r, hr, hwithin, hok, htoo⟩ := ih (i + 1)
            (buffSize - (s.length + 1)) (list + (s.length + 1))
            (total + (s.length + 1)) h.tail hmore (by omega)
          have hiff : EndsInside (s :: names) buffSize
              ↔ EndsInside names (buffSize - (s.length + 1)) := by
            rw [endsInside_cons]
            constructor
            · intro ⟨_, _, hrest⟩
              exact hrest.resolve_left (by omega)
            · exact fun hrest => ⟨hne, by omega, .inr hrest⟩
          rw [hr, hiff]
          refine ⟨_, rfl, fun a ha => htouch r a (fun hta => ?_) ha, hok, htoo⟩
          have := hwithin a hta
          omega

end Loop

-- ======================================================= the protocol

/-- What the caller of `list_xattr` is promised: a query, a whole
listing, or an error, as the size demands, and nothing written outside
the buffer. -/
structure SizeProtocol (names : List Bytes) (buffSize : Nat)
    (r : XattrReply) : Prop where
  query : buffSize = 0 →
    r.err = .ok ∧ r.length = some (namesBody names : Int)
      ∧ ∀ a, ¬ Mem.Touches r.stores a
  whole : namesBody names ≤ buffSize →
    r.err = .ok ∧ r.length = some (namesBody names : Int)
      ∧ ∀ list : Mem, (Mem.perform r.stores list).read 0 (namesBody names)
        = (terminated names).flatten
  tooLong : 0 < buffSize → buffSize < namesBody names → r.err = .tooLong
  within : ∀ a, Mem.Touches r.stores a → a < buffSize
  bounded : r.err = .ok → 0 < buffSize →
    ∃ n, r.length = some n ∧ n ≤ (buffSize : Int)

variable {m : Mem} {path : Bytes} {n buffSize : Nat} {names : List Bytes}

/-- The entries of a node, from the first one on. -/
theorem XattrNames.from_zero (h : XattrNames m n names) :
    NamesFrom m (n + nodeSize) 0 names := by
  intro k s hs
  rw [Nat.zero_add]
  exact ⟨h.listed k s hs, h.short s (List.mem_of_getElem? hs)⟩

/-- `list_xattr` is the loop over the entries of the node. -/
theorem listXattr_node (hpath : getNodeOffset m path = some (.ok, n))
    (hnode : XattrNames m n names) :
    listXattr m path buffSize
      = listXattrFrom m (n + nodeSize) names.length 0 buffSize 0
          (counted 0) := by
  unfold listXattr
  rw [hpath]
  simp only
  rw [hnode.count]
  rfl

/-- The answer to a query keeps the protocol if `ssize_t` can hold it. -/
theorem protocol_query_iff (hpos : 0 < namesBody names) :
    SizeProtocol names 0
        { err := .ok, length := some (counted (namesBody names))
          stores := [] }
      ↔ namesBody names < 2 ^ 63 := by
  have hnone : ∀ a, ¬ Mem.Touches [] a := fun a ⟨w, hw, _⟩ =>
    absurd hw List.not_mem_nil
  rw [← counted_eq_iff]
  constructor
  · intro h
    exact Option.some.inj (h.query rfl).2.1
  · intro hcounted
    refine ⟨fun _ => ⟨rfl, congrArg some hcounted, hnone⟩, fun h => ?_,
      fun h => ?_, fun a h => absurd h (hnone a), fun _ h => ?_⟩
    · omega
    · omega
    · omega

/-- So does the answer where all names fit. -/
theorem protocol_whole_iff (hge : namesBody names ≤ buffSize) :
    SizeProtocol names buffSize
        { err := .ok, length := some (counted (namesBody names))
          stores := Mem.consecutive 0 (terminated names) }
      ↔ namesBody names < 2 ^ 63 := by
  have hwithin : ∀ a, Mem.Touches (Mem.consecutive 0 (terminated names)) a →
      a < namesBody names := by
    intro a ha
    rw [Mem.touches_consecutive, length_terminated] at ha
    omega
  rw [← counted_eq_iff]
  constructor
  · intro h
    exact Option.some.inj (h.whole hge).2.1
  · intro hcounted
    refine ⟨fun hzero => ⟨rfl, congrArg some hcounted, fun a ha => ?_⟩,
      fun _ => ⟨rfl, congrArg some hcounted, fun list => ?_⟩,
      fun _ h => ?_, fun a ha => ?_, fun _ _ => ?_⟩
    · have := hwithin a ha
      omega
    · have hread := @Mem.read_consecutive (terminated names) 0 list
      rw [length_terminated] at hread
      exact hread
    · omega
    · exact Nat.lt_of_lt_of_le (hwithin a ha) hge
    · exact ⟨_, rfl, by rw [hcounted]; omega⟩

/-- Where the names do not fit, the error code decides. -/
theorem protocol_cut_iff {r : XattrReply} (hpos : 0 < buffSize)
    (hlt : buffSize < namesBody names)
    (hwithin : ∀ a, Mem.Touches r.stores a → a < buffSize) :
    SizeProtocol names buffSize r ↔ r.err = .tooLong := by
  constructor
  · exact fun h => h.tooLong hpos hlt
  · intro htoo
    refine ⟨fun h => ?_, fun h => ?_, fun _ _ => htoo, hwithin,
      fun herr => ?_⟩
    · omega
    · omega
    · rw [htoo] at herr
      cases herr

/-- `list_xattr` keeps the protocol if and only if no first names fill
the buffer to the last byte while there are more, and the total is a
number that `ssize_t` can hold (or is not asked for). -/
theorem listXattr_protocol_iff (m : Mem) (path : Bytes) (n : Nat)
    (names : List Bytes) (buffSize : Nat)
    (hpath : getNodeOffset m path = some (.ok, n))
    (hnode : XattrNames m n names) :
    (∃ r, listXattr m path buffSize = some r
        ∧ SizeProtocol names buffSize r)
      ↔ ¬ EndsInside names buffSize
        ∧ (namesBody names < 2 ^ 63
          ∨ 0 < buffSize ∧ buffSize < namesBody names) := by
  have hfrom := hnode.from_zero
  rw [listXattr_node hpath hnode]
  rcases Nat.lt_or_ge buffSize (namesBody names) with hlt | hge
  · rcases Nat.eq_zero_or_pos buffSize with rfl | hpos
    · -- a query
      have hnot : ¬ EndsInside names 0 := fun h =>
        Nat.lt_irrefl 0 h.bounds.1
      rw [listXattrFrom_query names 0 0 0 hfrom, Nat.zero_add]
      simp only [Option.some.injEq, exists_eq_left', protocol_query_iff hlt,
        hnot, not_false_eq_true, true_and, lt_irrefl, false_and, or_false]
    · -- too little
      obtain ⟨r, hr, hwithin, hok, htoo⟩ :=
        listXattrFrom_cut names 0 buffSize 0 0 hfrom hpos hlt
      rw [Nat.zero_add] at hwithin
      rw [hr]
      simp only [Option.some.injEq, exists_eq_left',
        protocol_cut_iff hpos hlt hwithin, hpos, hlt, and_self, or_true,
        and_true]
      refine ⟨fun herr hinside => ?_, htoo⟩
      rw [hok hinside] at herr
      cases herr
  · -- enough
    have hnot : ¬ EndsInside names buffSize := fun h =>
      Nat.not_lt.2 hge h.bounds.2
    rw [listXattrFrom_whole names 0 buffSize 0 0 hfrom hge, Nat.zero_add]
    simp only [Option.some.injEq, exists_eq_left', protocol_whole_iff hge,
      hnot, not_false_eq_true, true_and, Nat.not_lt.2 hge, and_false,
      or_false]

/-- A node of the builder has the names of its attributes. -/
theorem xattrNames_of_at {xattrs : Xattrs} (h : XattrsAt m n xattrs)
    (hlen : xattrs.length < 2 ^ 32) (h0 : ∀ x ∈ xattrs, 0 ∉ x.1) :
    XattrNames m n (xattrs.map Prod.fst) := by
  have hlimit : allocLimit = 2 ^ 63 - 1 := rfl
  have hrecord : ∀ (i : Nat) (x : Bytes × Bytes), xattrs[i]? = some x →
      (0 ∉ x.1 ∧ m.CStr (Entry.nameOffset m (n + nodeSize) i) x.1)
        ∧ x.1.length + 1 < 2 ^ 64 := by
    intro i x hx
    have hx0 := h0 x (List.mem_of_getElem? hx)
    obtain ⟨hstart, hbehind, hstop, hname, -, -⟩ := h.record i x hx
    have hfits := h.fits
    exact ⟨⟨hx0, hname hx0⟩, by omega⟩
  refine ⟨?_, fun i s hs => ?_, fun s hs => ?_⟩
  · rw [h.count, uint32_of_lt hlen, List.length_map]
  · rw [List.getElem?_map, Option.map_eq_some_iff] at hs
    obtain ⟨x, hx, rfl⟩ := hs
    exact (hrecord i x hx).1
  · obtain ⟨x, hx, rfl⟩ := List.mem_map.1 hs
    obtain ⟨i, hi⟩ := List.mem_iff_getElem?.1 hx
    exact (hrecord i x hi).2

/-- A file with the attributes `a` and `b`, at the root of an image. -/
theorem two_names_at_root : ∃ b', (MetaFSBuilder.start fun _ _ => 0).addFile
      (fun _ _ => 0) (statOf 0x81A4) [([97], [49]), ([98], [50])]
        = some (b', usizeSize)
    ∧ getNodeOffset b'.data [47] = some (.ok, usizeSize)
    ∧ XattrNames b'.data usizeSize [[97], [98]] := by
  obtain ⟨b', hadd, hpath, hat⟩ :=
    xattrsAt_root [([97], [49]), ([98], [50])] (by decide)
  exact ⟨b', hadd, hpath, xattrNames_of_at hat (by decide) (by decide)⟩

/-- Two names, for which the buffer has just room. -/
theorem listXattr_protocol_root : ∃ b',
    (MetaFSBuilder.start fun _ _ => 0).addFile (fun _ _ => 0)
        (statOf 0x81A4) [([97], [49]), ([98], [50])] = some (b', usizeSize)
      ∧ ∃ r, listXattr b'.data [47] 4 = some r
        ∧ SizeProtocol [[97], [98]] 4 r := by
  obtain ⟨b', hadd, hpath, hnode⟩ := two_names_at_root
  refine ⟨b', hadd, (listXattr_protocol_iff b'.data [47] usizeSize
    [[97], [98]] 4 hpath hnode).2 ⟨fun h => ?_, .inl (by decide)⟩⟩
  exact absurd h.bounds.2 (by decide)

/-- With two bytes for `a` and `b` the call answers OK and four. -/
theorem listXattr_ok_of_four : ∃ b',
    (MetaFSBuilder.start fun _ _ => 0).addFile (fun _ _ => 0)
        (statOf 0x81A4) [([97], [49]), ([98], [50])] = some (b', usizeSize)
      ∧ listXattr b'.data [47] 2
        = some { err := .ok, length := some 4
                 stores := [{ pos := 0, bytes := [97, 0] }] }
      ∧ ¬ SizeProtocol [[97], [98]] 2
        { err := .ok, length := some 4
          stores := [{ pos := 0, bytes := [97, 0] }] } := by
  obtain ⟨b', hadd, hpath, hnode⟩ := two_names_at_root
  refine ⟨b', hadd, ?_, fun h => ?_⟩
  · have hfrom := hnode.from_zero
    rw [listXattr_node hpath hnode]
    show listXattrFrom _ _ 2 0 2 0 (counted 0) = _
    rw [listXattrFrom_cons hfrom, if_neg (by decide), if_neg (by decide)]
    show Option.map _ (listXattrFrom _ _ 1 1 0 2 (counted 2)) = _
    rw [listXattrFrom_cons hfrom.tail, if_pos rfl]
    rfl
  · exact absurd (h.tooLong (by decide) (by decide)) (by decide)

end MetaFileSystem

end Distfs

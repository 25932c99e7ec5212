/-
The round trip of extended attributes (`add_xattrs`, `get_xattr`).

# What comes back

The search for a name is that of path lookup, with the same limit: up to
`2 ^ 30 + 1` attributes it is exact, and from there on the last one is
not found. The length word comes back as it was. The bytes are those
that `strncpy` stored: the value up to its first NUL, and NULs for the
rest. So the round trip fails for a value with anything else behind a
NUL, and for no other one (`Padded`).
-/
import Distfs.Meta.XattrNames

namespace Distfs

/-- Behind its first NUL the value has only NULs. -/
def Padded (value : Bytes) : Prop := ∀ b ∈ value.dropWhile (· ≠ 0), b = 0

instance (value : Bytes) : Decidable (Padded value) :=
  List.decidableBAll (· = 0) _

/-- The bytes of the value that `strncpy` stores. -/
def stored (value : Bytes) : Bytes := Mem.strncpyBytes value value.length

theorem length_stored (value : Bytes) :
    (stored value).length = value.length :=
  Mem.length_strncpyBytes value value.length

theorem length_takeWhile_le (value : Bytes) :
    (value.takeWhile (· ≠ 0)).length ≤ value.length :=
  (List.takeWhile_prefix _).length_le

/-- What `strncpy` stores with room for more than the value. -/
theorem strncpyBytes_of_le (value : Bytes) {n : Nat} (h : value.length ≤ n) :
    Mem.strncpyBytes value n = value.takeWhile (· ≠ 0)
      ++ List.replicate (n - (value.takeWhile (· ≠ 0)).length) 0 := by
  have hle := length_takeWhile_le value
  rw [Mem.strncpyBytes, List.take_of_length_le (by omega)]

/-- `strncpy` stores a value as it is just when it is padded. -/
theorem stored_eq_iff (value : Bytes) :
    stored value = value ↔ Padded value := by
  have hcut := List.takeWhile_append_dropWhile (p := (· ≠ 0)) (l := value)
  have hlen := congrArg List.length hcut
  rw [List.length_append] at hlen
  have hrest : value.length - (value.takeWhile (· ≠ 0)).length
      = (value.dropWhile (· ≠ 0)).length := by omega
  rw [stored, strncpyBytes_of_le value (Nat.le_refl _), hrest]
  conv_lhs => rhs; rw [← hcut]
  rw [List.append_cancel_left_eq, eq_comm, List.eq_replicate_iff]
  exact ⟨fun h => h.2, fun h => ⟨rfl, h⟩⟩

/-- The terminator is behind the bytes of the value. -/
theorem take_strncpyBytes (value : Bytes) :
    (Mem.strncpyBytes value (value.length + 1)).take value.length
      = stored value := by
  have hle := length_takeWhile_le value
  rw [stored, strncpyBytes_of_le value (Nat.le_succ _),
    strncpyBytes_of_le value (Nat.le_refl _), List.take_append,
    List.take_of_length_le hle, List.take_replicate]
  congr 2
  omega

namespace MetaFileSystem

variable {m : Mem} {path name value bytes : Bytes} {n buffSize : Nat}
  {xattrs : Xattrs}

-- ========================================================= the search

/-- Of any number of entries, an answer of the search compares equal. Of
so many that their number is a negative `int` it is the first one. -/
theorem findEntity_equal {ents count r : Nat}
    (h : findEntity m name ents count = some r) (hr : r ≠ 0)
    (hcount : count < 2 ^ 32) :
    ∃ j, j < count ∧ (2 ^ 31 < count → j = 0)
      ∧ compareName m ents name j = .eq := by
  unfold findEntity at h
  split at h
  · cases h
    exact absurd rfl hr
  · next hpos =>
    split at h
    · cases h
    · cases h
      exact absurd rfl hr
    · next j hfind =>
      rcases Nat.lt_or_ge (2 ^ 31) count with hmany | hfew
      · have hneg : toInt32 (count - 1) < 0 := by
          rw [toInt32, if_neg (by omega)]
          omega
        obtain ⟨hj, heq⟩ := BinarySearch.find_index (n := 1) (Int.le_refl 0)
          (by omega) (by omega) hfind
        exact ⟨j, by omega, fun _ => by omega, heq⟩
      · rw [toInt32_pred (by omega) hfew] at hfind
        obtain ⟨hj, heq⟩ := BinarySearch.find_index (n := count)
          (Int.le_refl 0) (by omega) (by omega) hfind
        exact ⟨j, hj, fun h => by omega, heq⟩

/-- From `2 ^ 30 + 2` names on the last one is not found. -/
theorem findEntity_last {ents : Nat} {names : List Bytes}
    (hnames : Names m ents names) (hasc : names.Pairwise (· < ·))
    (hlen : 2 ^ 30 + 1 < names.length)
    (hlast : names[names.length - 1]? = some name) :
    ∀ r, findEntity m name ents (uint32 names.length) = some r → r = 0 := by
  intro r hr
  have h0 := (hnames _ name hlast).1
  rcases Nat.lt_or_ge (2 ^ 31) names.length with hmany | hfew
  · by_contra hne
    have hlt : uint32 names.length < 2 ^ 32 := Nat.mod_lt _ (by omega)
    obtain ⟨j, hj, hfirst, heq⟩ := findEntity_equal hr hne hlt
    have hle : uint32 names.length ≤ names.length := Nat.mod_le _ _
    have hjlen : j < names.length := by omega
    have hname := (compareName_eq_iff hnames h0
      (List.getElem?_eq_getElem hjlen)).1 heq
    -- the names are distinct, so the answer is the last one
    have hend : j = names.length - 1 := by
      obtain ⟨hl, hlast'⟩ := List.getElem?_eq_some_iff.1 hlast
      rcases Nat.lt_trichotomy j (names.length - 1) with h | h | h
      · have := List.pairwise_iff_getElem.1 hasc j _ hjlen hl h
        rw [hname, hlast'] at this
        exact absurd this (by simp)
      · exact h
      · omega
    rcases Nat.lt_or_ge (2 ^ 31) (uint32 names.length) with h | h
    · have := hfirst h
      omega
    · omega
  · rw [uint32_of_lt (by omega), findEntity_overflow hnames hasc hlen hfew
      hlast] at hr
    cases hr

-- ========================================================== the reply

/-- What the caller of `get_xattr` is promised for an attribute with this
value. -/
structure Answers (value : Bytes) (buffSize : Nat) (r : XattrReply) :
    Prop where
  length : r.length = some (value.length : Int)
  query : buffSize = 0 → r.err = .ok ∧ ∀ a, ¬ Mem.Touches r.stores a
  whole : 0 < buffSize → value.length ≤ buffSize →
    r.err = .ok
      ∧ (∀ buff : Mem,
        (Mem.perform r.stores buff).read 0 value.length = value)
      ∧ ∀ a, Mem.Touches r.stores a → a < value.length
  tooLong : 0 < buffSize → buffSize < value.length →
    r.err = .tooLong ∧ ∀ a, ¬ Mem.Touches r.stores a

/-- The reply of `get_xattr` for a value stored as these bytes. -/
def reply (bytes : Bytes) (buffSize : Nat) : XattrReply :=
  if 0 < buffSize then
    if buffSize < bytes.length then
      { err := .tooLong, length := some bytes.length, stores := [] }
    else
      { err := .ok, length := some bytes.length
        stores := [{ pos := 0, bytes := bytes }] }
  else { err := .ok, length := some bytes.length, stores := [] }

theorem answers_reply (bytes : Bytes) (buffSize : Nat) :
    Answers bytes buffSize (reply bytes buffSize) := by
  have hnone : ∀ a, ¬ Mem.Touches [] a := fun a ⟨w, hw, _⟩ =>
    absurd hw List.not_mem_nil
  unfold reply
  split
  · split
    · exact ⟨rfl, fun h => by omega, fun _ h => by omega,
        fun _ _ => ⟨rfl, hnone⟩⟩
    · refine ⟨rfl, fun h => by omega,
        fun _ _ => ⟨rfl, fun buff => ?_, fun a ha => ?_⟩, fun _ h => by omega⟩
      · exact Mem.read_write_self buff 0 bytes
      · rw [Mem.touches_cons] at ha
        rcases ha with ⟨-, ha⟩ | ha
        · rwa [Nat.zero_add] at ha
        · exact absurd ha (hnone a)
  · exact ⟨rfl, fun _ => ⟨rfl, hnone⟩, fun h => by omega, fun h => by omega⟩

/-- A reply that keeps the promise for a value hands out its bytes. -/
theorem reply_bytes (hlen : bytes.length = value.length)
    (h : Answers value value.length (reply bytes value.length)) :
    bytes = value := by
  rcases Nat.eq_zero_or_pos value.length with hzero | hpos
  · rw [List.length_eq_zero_iff.1 hzero]
    exact List.length_eq_zero_iff.1 (hlen.trans hzero)
  · have hread := (h.whole hpos (Nat.le_refl _)).2.1 fun _ => 0
    rw [reply, if_pos hpos, if_neg (by omega), ← hlen] at hread
    exact (Mem.read_write_self _ 0 bytes).symm.trans hread

-- ===================================================== the round trip

/-- The attribute that the search answers is replied with the bytes
stored for its value. -/
theorem getXattr_stored (hpath : getNodeOffset m path = some (.ok, n))
    (hat : XattrsAt m n xattrs) {i : Nat}
    (hx : xattrs[i]? = some (name, value))
    (hfind : findEntity m name (n + nodeSize) (Node.xattrsCount m n)
      = some (Entry.dataOffset m (n + nodeSize) i)) :
    getXattr m path name buffSize = some (reply (stored value) buffSize) := by
  have hlimit : allocLimit = 2 ^ 63 - 1 := rfl
  have hnode : nodeSize = 72 := rfl
  obtain ⟨hstart, hbehind, hstop, -, hsize, hvalue⟩ := hat.record i _ hx
  have hfits := hat.fits
  simp only at hstop hsize hvalue
  have hbytes : m.read (Entry.dataOffset m (n + nodeSize) i + 8)
      value.length = stored value := by
    have htake := congrArg (List.take value.length) hvalue
    rwa [Mem.take_read, Nat.min_eq_left (Nat.le_succ _), take_strncpyBytes]
      at htake
  have hlength : toInt64 value.length = (value.length : Int) := by
    rw [toInt64, if_pos (by omega)]
  unfold getXattr
  rw [hpath]
  simp only
  rw [hfind]
  simp only
  rw [if_neg (by omega), usizeSize, hsize, hbytes, hlength, reply,
    length_stored]
  split
  · split
    · rfl
    · rfl
  · rfl

/-- `get_xattr` answers every name, whatever the size of the buffer: a
stored one with its value, and another one with `NO_DATA`. -/
def AnswersAll (m : Mem) (path : Bytes) (xattrs : Xattrs) : Prop :=
  ∀ name buffSize, 0 ∉ name → ∃ r, getXattr m path name buffSize = some r
    ∧ (∀ value, (name, value) ∈ xattrs → Answers value buffSize r)
    ∧ ((∀ value, (name, value) ∉ xattrs) → r.err = .noData)

section RoundTrip

variable (hpath : getNodeOffset m path = some (.ok, n))
  (hat : XattrsAt m n xattrs)
  (hasc : (xattrs.map Prod.fst).Pairwise (· < ·))
  (h0 : ∀ x ∈ xattrs, 0 ∉ x.1)

include hat h0 in
theorem names_of_xattrsAt :
    Names m (n + nodeSize) (xattrs.map Prod.fst) := by
  intro i s hs
  rw [List.getElem?_map, Option.map_eq_some_iff] at hs
  obtain ⟨x, hx, rfl⟩ := hs
  have hx0 := h0 x (List.mem_of_getElem? hx)
  exact ⟨hx0, (hat.record i x hx).name hx0⟩

include hpath hat hasc h0 in
/-- Few enough attributes, and what is stored is what is answered. -/
theorem getXattr_spec (hlen : xattrs.length ≤ 2 ^ 30 + 1)
    (hname : 0 ∉ name) :
    ∃ r, getXattr m path name buffSize = some r
      ∧ (∀ value, (name, value) ∈ xattrs →
        r = reply (stored value) buffSize)
      ∧ ((∀ value, (name, value) ∉ xattrs) → r.err = .noData) := by
  have hcount : Node.xattrsCount m n = (xattrs.map Prod.fst).length := by
    rw [hat.count, uint32_of_lt (by omega), List.length_map]
  obtain ⟨q, hfind, hfound, hmissing⟩ := findEntity_spec
    (names_of_xattrsAt hat h0) hasc (by rwa [List.length_map]) hname
  rw [← hcount] at hfind
  by_cases hmem : ∃ value, (name, value) ∈ xattrs
  · obtain ⟨value, hvalue⟩ := hmem
    obtain ⟨i, hi⟩ := List.mem_iff_getElem?.1 hvalue
    have hget : ∀ (j : Nat) (v : Bytes), xattrs[j]? = some (name, v) →
        (xattrs.map Prod.fst)[j]? = some name := by
      intro j v hj
      rw [List.getElem?_map, hj]
      rfl
    rw [hfound i (hget i value hi)] at hfind
    refine ⟨_, getXattr_stored hpath hat hi hfind, fun v hv => ?_,
      fun hnone => absurd hvalue (hnone value)⟩
    -- a name is there once
    obtain ⟨j, hj⟩ := List.mem_iff_getElem?.1 hv
    have hnodup : (xattrs.map Prod.fst).Nodup :=
      hasc.imp fun hlt heq => by
        rw [heq] at hlt
        exact absurd hlt (by simp)
    obtain ⟨hilt, -⟩ := List.getElem?_eq_some_iff.1 (hget i value hi)
    have hij : i = j := (List.getElem?_inj hilt hnodup).1
      ((hget i value hi).trans (hget j v hj).symm)
    rw [hij, hj, Option.some.injEq, Prod.mk.injEq] at hi
    rw [hi.2]
  · have hzero : q = 0 := by
      refine hmissing fun hin => ?_
      obtain ⟨x, hx, rfl⟩ := List.mem_map.1 hin
      exact hmem ⟨x.2, hx⟩
    rw [hzero] at hfind
    refine ⟨{ err := .noData, length := none, stores := [] }, ?_,
      fun v hv => absurd ⟨v, hv⟩ hmem, fun _ => rfl⟩
    unfold getXattr
    rw [hpath]
    simp only
    rw [hfind]
    rfl

end RoundTrip

/-- The attributes of a node come back if and only if there are at most
`2 ^ 30 + 1` of them, and no value has anything but NULs behind its first
NUL. -/
theorem getXattr_round_trip_iff (m : Mem) (path : Bytes) (n : Nat)
    (xattrs : Xattrs) (hpath : getNodeOffset m path = some (.ok, n))
    (hat : XattrsAt m n xattrs)
    (hasc : (xattrs.map Prod.fst).Pairwise (· < ·))
    (hnames : ∀ x ∈ xattrs, x.1 ≠ [] ∧ 0 ∉ x.1) :
    AnswersAll m path xattrs
      ↔ xattrs.length ≤ 2 ^ 30 + 1 ∧ ∀ x ∈ xattrs, Padded x.2 := by
  have h0 : ∀ x ∈ xattrs, 0 ∉ x.1 := fun x hx => (hnames x hx).2
  constructor
  · intro h
    have hlen : xattrs.length ≤ 2 ^ 30 + 1 := by
      by_contra hmany
      obtain ⟨x, hx⟩ : ∃ x, xattrs[xattrs.length - 1]? = some x :=
        ⟨_, List.getElem?_eq_getElem (by omega)⟩
      have hmem := List.mem_of_getElem? hx
      obtain ⟨r, hr, hstored, -⟩ := h x.1 0 (h0 x hmem)
      have herr := ((hstored x.2 hmem).query rfl).1
      have hlast : (xattrs.map Prod.fst)[(xattrs.map Prod.fst).length - 1]?
          = some x.1 := by
        rw [List.length_map, List.getElem?_map, hx]
        rfl
      have hlost := findEntity_last (names_of_xattrsAt hat h0) hasc
        (by rw [List.length_map]; omega) hlast
      rw [List.length_map, ← hat.count] at hlost
      unfold getXattr at hr
      rw [hpath] at hr
      simp only at hr
      split at hr
      · cases hr
      · next q hfind =>
        rw [hlost q hfind, if_pos rfl, Option.some.injEq] at hr
        rw [← hr] at herr
        cases herr
    refine ⟨hlen, fun x hx => ?_⟩
    obtain ⟨r, hr, hstored, -⟩ := h x.1 x.2.length (h0 x hx)
    obtain ⟨r', hr', hreply, -⟩ := @getXattr_spec m path x.1 n x.2.length
      xattrs hpath hat hasc h0 hlen (h0 x hx)
    rw [hr, Option.some.injEq] at hr'
    subst hr'
    have hanswers := hstored x.2 hx
    rw [hreply x.2 hx] at hanswers
    exact (stored_eq_iff x.2).1 (reply_bytes (length_stored x.2) hanswers)
  · intro ⟨hlen, hpadded⟩ name buffSize hname
    obtain ⟨r, hr, hreply, hnone⟩ := @getXattr_spec m path name n buffSize
      xattrs hpath hat hasc h0 hlen hname
    refine ⟨r, hr, fun value hvalue => ?_, hnone⟩
    rw [hreply value hvalue, (stored_eq_iff value).2 (hpadded _ hvalue)]
    exact answers_reply value buffSize

/-- Three attributes, one of them with an empty value. -/
def threeTexts : Xattrs := [([97], [49]), ([97, 98], []), ([98], [50, 51])]

theorem getXattr_round_trip_text : ∃ b',
    (MetaFSBuilder.start fun _ _ => 0).addFile (fun _ _ => 0)
        (statOf 0x81A4) threeTexts = some (b', usizeSize)
      ∧ AnswersAll b'.data [47] threeTexts := by
  obtain ⟨b', hadd, hpath, hat⟩ := xattrsAt_root threeTexts (by decide)
  have hfew : threeTexts.length ≤ 2 ^ 30 + 1 := by
    show 3 ≤ 2 ^ 30 + 1
    omega
  exact ⟨b', hadd, (getXattr_round_trip_iff b'.data [47] usizeSize
    threeTexts hpath hat (by decide) (by decide)).2 ⟨hfew, by decide⟩⟩

/-- The value `00 01` comes back as `00 00`. -/
theorem getXattr_behind_nul : ∃ b',
    (MetaFSBuilder.start fun _ _ => 0).addFile (fun _ _ => 0)
        (statOf 0x81A4) [([97], [0, 1])] = some (b', usizeSize)
      ∧ getXattr b'.data [47] [97] 2
        = some { err := .ok, length := some 2
                 stores := [{ pos := 0, bytes := [0, 0] }] }
      ∧ ¬ AnswersAll b'.data [47] [([97], [0, 1])] := by
  obtain ⟨b', hadd, hpath, hat⟩ :=
    xattrsAt_root [([97], [0, 1])] (by decide)
  obtain ⟨r, hr, hreply, -⟩ := @getXattr_spec b'.data [47] [97] usizeSize 2
    [([97], [0, 1])] hpath hat (by decide) (by decide) (by decide) (by decide)
  have hrep := hreply [0, 1] List.mem_cons_self
  refine ⟨b', hadd, hr.trans (congrArg some (hrep.trans rfl)), fun h => ?_⟩
  obtain ⟨r', hr', hanswers, -⟩ := h [97] 2 (by decide)
  rw [hr, Option.some.injEq] at hr'
  subst hr'
  have hread := ((hanswers [0, 1] List.mem_cons_self).whole (by decide)
    (by decide)).2.1 fun _ => 0
  rw [hrep] at hread
  exact absurd hread (by decide)

end MetaFileSystem

end Distfs

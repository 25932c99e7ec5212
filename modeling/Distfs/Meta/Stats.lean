/-
What `get_stat` returns of the `struct stat` that `set_stat` stored.

Mode, owner, size and block count come back as they were. A time is
stored as its nanoseconds since the epoch, in 64 bits without a sign,
and `get_stat` divides without a sign too. Before 1970 it so divides a
number that is `2 ^ 64` too large, and as `2 ^ 64` is no multiple of a
second the nanoseconds are wrong with the seconds. From 1970 on there is
no difference between the signed number and the unsigned one.
-/
import Distfs.Meta.MetaFileSystem
import Distfs.Meta.ScanDfs

namespace Distfs

/-- The number fits a signed one of 64 bits. -/
def FitsInt64 (n : Int) : Prop := -2 ^ 63 ≤ n ∧ n < 2 ^ 63

instance (n : Int) : Decidable (FitsInt64 n) :=
  inferInstanceAs (Decidable (_ ∧ _))

namespace Stat

/-- The fields have values of their types, and the times, in nanoseconds
since the epoch, fit 64 bits. -/
structure Valid (st : Stat) : Prop where
  size : FitsInt64 st.size
  blocks : FitsInt64 st.blocks
  mtimeNsec : 0 ≤ st.mtimeNsec ∧ st.mtimeNsec < 1000000000
  ctimeNsec : 0 ≤ st.ctimeNsec ∧ st.ctimeNsec < 1000000000
  mtime : FitsInt64 (st.mtimeSec * 1000000000 + st.mtimeNsec)
  ctime : FitsInt64 (st.ctimeSec * 1000000000 + st.ctimeNsec)

/-- The reply tells what is in the `struct stat`. -/
structure Told (st : Stat) (r : StatReply) : Prop where
  mode : r.mode = st.mode.toNat
  uid : r.uid = st.uid.toNat
  gid : r.gid = st.gid.toNat
  size : r.size = st.size
  blocks : r.blocks = st.blocks
  mtime : (r.mtime.1 : Int) = st.mtimeSec ∧ (r.mtime.2 : Int) = st.mtimeNsec
  ctime : (r.ctime.1 : Int) = st.ctimeSec ∧ (r.ctime.2 : Int) = st.ctimeNsec
  nanos : r.mtime.2 < 1000000000 ∧ r.ctime.2 < 1000000000

end Stat

-- ==================================================== signed numbers

/-- The cast is a 64-bit number. -/
theorem toUint64_lt (n : Int) : toUint64 n < 2 ^ 64 := by
  unfold toUint64
  omega

/-- A signed number survives the casts there and back. -/
theorem toInt64_toUint64 {n : Int} (h : FitsInt64 n) :
    toInt64 (toUint64 n) = n := by
  obtain ⟨hlo, hhi⟩ := h
  unfold toInt64 toUint64
  split
  · omega
  · omega

/-- The cast of what is not negative. -/
theorem toUint64_of_nonneg {n : Int} (h : 0 ≤ n) (hlt : n < 2 ^ 63) :
    (toUint64 n : Int) = n := by
  unfold toUint64
  omega

/-- The unsigned division gives back seconds and nanoseconds exactly from
1970 on. -/
theorem split_time_iff {sec nsec : Int}
    (hnsec : 0 ≤ nsec ∧ nsec < 1000000000)
    (hfits : FitsInt64 (sec * 1000000000 + nsec)) :
    ((toUint64 (nsec + sec * 1000000000) / 1000000000 : Nat) : Int) = sec
        ∧ ((toUint64 (nsec + sec * 1000000000) % 1000000000 : Nat) : Int)
          = nsec
      ↔ 0 ≤ sec := by
  constructor
  · intro ⟨hsec, _⟩
    rw [← hsec]
    exact Int.natCast_nonneg _
  · intro hsec
    have hlt := hfits.2
    have hcast := @toUint64_of_nonneg (nsec + sec * 1000000000) (by omega)
      (by omega)
    constructor
    · rw [Int.natCast_ediv, hcast]
      omega
    · rw [Int.natCast_emod, hcast]
      omega

-- ========================================================== the node

namespace MetaFSBuilder

variable (st : Stat) (m : Mem) (p : Nat)

theorem uid_setStat : Node.uid (setStat st m p) p = st.uid.toNat := by
  unfold setStat Node.uid
  repeat rw [Mem.readLe_writeLe_disjoint _ (by omega)]
  rw [Mem.readLe_writeLe_self]
  exact Nat.mod_eq_of_lt st.uid.toNat_lt

theorem gid_setStat : Node.gid (setStat st m p) p = st.gid.toNat := by
  unfold setStat Node.gid
  repeat rw [Mem.readLe_writeLe_disjoint _ (by omega)]
  rw [Mem.readLe_writeLe_self]
  exact Nat.mod_eq_of_lt st.gid.toNat_lt

theorem size_setStat : Node.size (setStat st m p) p = toUint64 st.size := by
  unfold setStat Node.size
  repeat rw [Mem.readLe_writeLe_disjoint _ (by omega)]
  rw [Mem.readLe_writeLe_self]
  exact Nat.mod_eq_of_lt (toUint64_lt _)

theorem blockCount_setStat :
    Node.blockCount (setStat st m p) p = toUint64 st.blocks := by
  unfold setStat Node.blockCount
  repeat rw [Mem.readLe_writeLe_disjoint _ (by omega)]
  rw [Mem.readLe_writeLe_self]
  exact Nat.mod_eq_of_lt (toUint64_lt _)

theorem ctimeNs_setStat : Node.ctimeNs (setStat st m p) p
    = toUint64 (st.ctimeNsec + st.ctimeSec * 1000000000) := by
  unfold setStat Node.ctimeNs
  repeat rw [Mem.readLe_writeLe_disjoint _ (by omega)]
  rw [Mem.readLe_writeLe_self]
  exact Nat.mod_eq_of_lt (toUint64_lt _)

theorem mtimeNs_setStat : Node.mtimeNs (setStat st m p) p
    = toUint64 (st.mtimeNsec + st.mtimeSec * 1000000000) := by
  unfold setStat Node.mtimeNs
  rw [Mem.readLe_writeLe_self]
  exact Nat.mod_eq_of_lt (toUint64_lt _)

end MetaFSBuilder

namespace MetaFileSystem

/-- `get_stat` tells what `set_stat` was given if and only if neither
time is before 1970. -/
theorem getStat_setStat_iff (st : Stat) (hvalid : st.Valid) (m : Mem)
    (p : Nat) :
    st.Told (getStat (MetaFSBuilder.setStat st m p) p)
      ↔ 0 ≤ st.mtimeSec ∧ 0 ≤ st.ctimeSec := by
  have hmtime := split_time_iff hvalid.mtimeNsec hvalid.mtime
  have hctime := split_time_iff hvalid.ctimeNsec hvalid.ctime
  rw [← MetaFSBuilder.mtimeNs_setStat st m p] at hmtime
  rw [← MetaFSBuilder.ctimeNs_setStat st m p] at hctime
  rw [← hmtime, ← hctime]
  constructor
  · intro h
    exact ⟨h.mtime, h.ctime⟩
  · intro ⟨hm, hc⟩
    refine
      { mode := MetaFSBuilder.mode_setStat st m p
        uid := MetaFSBuilder.uid_setStat st m p
        gid := MetaFSBuilder.gid_setStat st m p
        size := ?_
        blocks := ?_
        mtime := hm
        ctime := hc
        nanos := ?_ }
    · unfold getStat
      rw [MetaFSBuilder.size_setStat, toInt64_toUint64 hvalid.size]
    · unfold getStat
      rw [MetaFSBuilder.blockCount_setStat, toInt64_toUint64 hvalid.blocks]
    · exact ⟨Nat.mod_lt _ (by omega), Nat.mod_lt _ (by omega)⟩

/-- An empty regular file, modified and changed at this second. -/
def fileAt (sec : Int) : Stat :=
  { mode := 0x81A4, uid := 0, gid := 0, size := 0, blocks := 0
    mtimeSec := sec, mtimeNsec := 0, ctimeSec := sec, ctimeNsec := 0 }

/-- A `struct stat` of any time that fits. -/
theorem fileAt_valid {sec : Int} (h : -9223372036 ≤ sec)
    (h' : sec ≤ 9223372036) : (fileAt sec).Valid := by
  have hzero : FitsInt64 0 := by decide
  have hnsec : (0 : Int) ≤ 0 ∧ (0 : Int) < 1000000000 := by decide
  have htime : FitsInt64 (sec * 1000000000 + 0) := by
    unfold FitsInt64
    omega
  exact ⟨hzero, hzero, hnsec, hnsec, htime, htime⟩

/-- A file of five bytes, with times of the year 2023. -/
def fileOf2023 : Stat :=
  { mode := 0x81A4, uid := 1000, gid := 100, size := 5, blocks := 8
    mtimeSec := 1700000000, mtimeNsec := 123456789, ctimeSec := 1700000001
    ctimeNsec := 999999999 }

theorem getStat_of_2023 :
    fileOf2023.Valid ∧ fileOf2023.Told (getStat (MetaFSBuilder.setStat
      fileOf2023 (fun _ => 0) usizeSize) usizeSize) := by
  have hvalid : fileOf2023.Valid := by
    refine ⟨?_, ?_, ?_, ?_, ?_, ?_⟩ <;> decide
  exact ⟨hvalid, (getStat_setStat_iff fileOf2023 hvalid (fun _ => 0)
    usizeSize).2 ⟨by decide, by decide⟩⟩

/-- A file of the last second of 1969 comes back as one of the year
2554. -/
theorem getStat_before_1970 :
    isSupported (fileAt (-1)).mode.toNat = true ∧ (fileAt (-1)).Valid
      ∧ (getStat (MetaFSBuilder.setStat (fileAt (-1)) (fun _ => 0)
          usizeSize) usizeSize).mtime = (18446744072, 709551616)
      ∧ ¬ (fileAt (-1)).Told (getStat (MetaFSBuilder.setStat (fileAt (-1))
          (fun _ => 0) usizeSize) usizeSize) := by
  have hvalid : (fileAt (-1)).Valid := fileAt_valid (by decide) (by decide)
  have hmtime : (getStat (MetaFSBuilder.setStat (fileAt (-1)) (fun _ => 0)
      usizeSize) usizeSize).mtime = (18446744072, 709551616) := by
    show (Node.mtimeNs _ _ / _, Node.mtimeNs _ _ % _) = _
    rw [MetaFSBuilder.mtimeNs_setStat]
    decide
  refine ⟨by decide, hvalid, hmtime, fun h => ?_⟩
  have hsec := h.mtime.1
  rw [hmtime] at hsec
  exact absurd hsec (by decide)

end MetaFileSystem

end Distfs

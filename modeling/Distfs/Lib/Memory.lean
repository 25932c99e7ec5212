/-
A flat byte memory, the fixed-width little-endian integers a C program
keeps in it, and NUL-terminated strings.

# What a memory is here

A total function from addresses to bytes. A C array of unknown length
is such a function too: what lies past its end is some byte, about
which nothing is said. Bounds are therefore statements ABOUT accesses
(a window `[a, a + n)`), never a side effect of reading; a program
whose own text must not leave a buffer says so with these windows.

# The two laws everything rests on

`read_write_self` and `read_write_disjoint`: a window reads back what
was last written over exactly it, and keeps its content under writes
elsewhere. The integer accessors (`readLe`, `writeLe`) and the string
predicate (`CStr`) are windows, and inherit both laws.
-/
import Mathlib.Data.List.GetD
import Mathlib.Data.List.TakeWhile
import Mathlib.Algebra.Order.Group.Nat

/-- A byte-addressed memory. -/
abbrev Mem := Nat → UInt8

namespace Mem

-- ====================================================== windows

/-- The `n` bytes from `a` on. -/
def read (m : Mem) (a n : Nat) : List UInt8 :=
  (List.range n).map fun i => m (a + i)

/-- Copy the bytes `bs` to the window that starts at `a`. -/
def write (m : Mem) (a : Nat) (bs : List UInt8) : Mem :=
  fun i => if a ≤ i ∧ i < a + bs.length then bs.getD (i - a) 0 else m i

/-- As many bytes as were asked for. -/
@[simp] theorem length_read (m : Mem) (a n : Nat) :
    (m.read a n).length = n := by
  simp [read]

@[simp] theorem read_zero (m : Mem) (a : Nat) : m.read a 0 = [] := rfl

@[simp] theorem getElem_read (m : Mem) (a n i : Nat)
    (h : i < (m.read a n).length) : (m.read a n)[i] = m (a + i) := by
  simp [read]

theorem getElem?_read {m : Mem} {a n i : Nat} (h : i < n) :
    (m.read a n)[i]? = some (m (a + i)) := by
  rw [List.getElem?_eq_getElem (by rwa [length_read]), getElem_read]

/-- A read looks at its range only. -/
theorem read_congr {m m' : Mem} {a n : Nat}
    (h : ∀ i, a ≤ i → i < a + n → m i = m' i) :
    m.read a n = m'.read a n := by
  refine List.map_congr_left fun i hi => ?_
  have hi' := List.mem_range.1 hi
  exact h _ (by omega) (by omega)

/-- Equal reads come from equal bytes. -/
theorem eq_of_read_eq {m m' : Mem} {a n i : Nat}
    (h : m.read a n = m'.read a n) (hlo : a ≤ i) (hhi : i < a + n) :
    m i = m' i := by
  have hi := List.map_inj_left.1 h (i - a) (List.mem_range.2 (by omega))
  rwa [Nat.add_sub_cancel' hlo] at hi

/-- A read in two parts. -/
theorem read_add (m : Mem) (a n k : Nat) :
    m.read a (n + k) = m.read a n ++ m.read (a + n) k := by
  simp [read, List.range_add, Nat.add_assoc, Function.comp_def]

/-- A read from its first byte on. -/
theorem read_succ (m : Mem) (a n : Nat) :
    m.read a (n + 1) = m a :: m.read (a + 1) n := by
  rw [Nat.add_comm n 1, read_add]
  rfl

/-- The first bytes of a read are a shorter one. -/
@[simp] theorem take_read (m : Mem) (a n k : Nat) :
    (m.read a n).take k = m.read a (min k n) := by
  simp [read, ← List.map_take, List.take_range]

/-- Its last bytes are one from further on. -/
theorem drop_read {m : Mem} {a n i : Nat} :
    (m.read a n).drop i = m.read (a + i) (n - i) := by
  refine List.ext_getElem (by simp) fun j hj hj' => ?_
  rw [List.getElem_drop, getElem_read, getElem_read, Nat.add_assoc]

/-- A window inside a window. -/
theorem take_drop_read {m : Mem} {a n i k : Nat} (h : i + k ≤ n) :
    ((m.read a n).drop i).take k = m.read (a + i) k := by
  rw [drop_read, take_read, Nat.min_eq_left (by omega)]

/-- A write leaves what is outside of its range. -/
theorem write_outside (m : Mem) {a i : Nat} {bs : List UInt8}
    (h : i < a ∨ a + bs.length ≤ i) : m.write a bs i = m i := by
  rw [write, if_neg (by omega)]

/-- Inside there are the bytes that were written. -/
theorem write_inside (m : Mem) {a i : Nat} {bs : List UInt8}
    (hlo : a ≤ i) (hhi : i - a < bs.length) :
    m.write a bs i = bs[i - a] := by
  rw [write, if_pos (by omega), List.getD_eq_getElem _ _ hhi]

/-- What was written is read. -/
@[simp] theorem read_write_self (m : Mem) (a : Nat) (bs : List UInt8) :
    (m.write a bs).read a bs.length = bs := by
  refine List.ext_getElem (by simp) fun i hi hi' => ?_
  rw [getElem_read, write_inside m (by omega) (by omega)]
  simp

/-- Beside a write a read finds what was there. -/
theorem read_write_disjoint (m : Mem) {a b n : Nat} {bs : List UInt8}
    (h : b + n ≤ a ∨ a + bs.length ≤ b) :
    (m.write a bs).read b n = m.read b n :=
  read_congr fun i hlo hhi => write_outside m (by omega)

-- ============================================ little-endian integers

/-- The `k` little-endian bytes of `v`; higher bits are dropped. -/
def leBytes : Nat → Nat → List UInt8
  | 0, _ => []
  | k + 1, v => UInt8.ofNat (v % 256) :: leBytes k (v / 256)

/-- The number whose little-endian bytes are given. -/
def leNat : List UInt8 → Nat
  | [] => 0
  | b :: bs => b.toNat + 256 * leNat bs

@[simp] theorem length_leBytes (k v : Nat) : (leBytes k v).length = k := by
  induction k generalizing v with
  | zero => rfl
  | succ k ih => simp [leBytes, ih]

/-- Decoding undoes encoding, up to the bits that do not fit. -/
theorem leNat_leBytes (k v : Nat) : leNat (leBytes k v) = v % 256 ^ k := by
  induction k generalizing v with
  | zero => simp [leBytes, leNat, Nat.mod_one]
  | succ k ih =>
      have hbyte : (UInt8.ofNat (v % 256)).toNat = v % 256 := by
        rw [UInt8.toNat_ofNat']
        exact Nat.mod_eq_of_lt (Nat.mod_lt _ (by omega))
      rw [leBytes, leNat, ih, hbyte, Nat.pow_succ', Nat.mod_mul]

/-- A number of `k` bytes is below `256 ^ k`. -/
theorem leNat_lt (bs : List UInt8) : leNat bs < 256 ^ bs.length := by
  induction bs with
  | nil => exact Nat.one_pos
  | cons b bs ih =>
      have hb := b.toNat_lt
      rw [leNat, List.length_cons, Nat.pow_succ]
      omega

/-- The `k`-byte little-endian integer at `a`. -/
def readLe (m : Mem) (a k : Nat) : Nat := leNat (m.read a k)

/-- Store `v` as a `k`-byte little-endian integer at `a`. -/
def writeLe (m : Mem) (a k v : Nat) : Mem := m.write a (leBytes k v)

/-- A number read from `k` bytes is below `256 ^ k`. -/
theorem readLe_lt (m : Mem) (a k : Nat) : m.readLe a k < 256 ^ k := by
  have hlt := leNat_lt (m.read a k)
  rwa [length_read] at hlt

/-- A number comes back as far as it fits. -/
@[simp] theorem readLe_writeLe_self (m : Mem) (a k v : Nat) :
    (m.writeLe a k v).readLe a k = v % 256 ^ k := by
  have hself := read_write_self m a (leBytes k v)
  rw [length_leBytes] at hself
  rw [readLe, writeLe, hself, leNat_leBytes]

/-- Beside a write a number stays. -/
theorem readLe_write_disjoint (m : Mem) {a b k : Nat} {bs : List UInt8}
    (h : b + k ≤ a ∨ a + bs.length ≤ b) :
    (m.write a bs).readLe b k = m.readLe b k := by
  rw [readLe, read_write_disjoint m h, ← readLe]

/-- Beside another number too. -/
theorem readLe_writeLe_disjoint (m : Mem) {a b k j v : Nat}
    (h : b + j ≤ a ∨ a + k ≤ b) :
    (m.writeLe a k v).readLe b j = m.readLe b j :=
  readLe_write_disjoint m (by rwa [length_leBytes])

/-- A number leaves what is outside of its bytes. -/
theorem writeLe_outside (m : Mem) {a k v i : Nat}
    (h : i < a ∨ a + k ≤ i) : m.writeLe a k v i = m i :=
  write_outside m (by rwa [length_leBytes])

/-- Reading a number looks at its bytes only. -/
theorem readLe_congr {m m' : Mem} {a k : Nat}
    (h : ∀ i, a ≤ i → i < a + k → m i = m' i) :
    m.readLe a k = m'.readLe a k := by
  rw [readLe, read_congr h, ← readLe]

-- ============================================ NUL-terminated strings

/-- The bytes `strncpy(dst, src, n)` stores for the C string `src`: its
bytes up to the first NUL, cut at `n`, padded with NULs to `n`. -/
def strncpyBytes (src : List UInt8) (n : Nat) : List UInt8 :=
  let s := (src.takeWhile (· ≠ 0)).take n
  s ++ List.replicate (n - s.length) 0

@[simp] theorem length_strncpyBytes (src : List UInt8) (n : Nat) :
    (strncpyBytes src n).length = n := by
  simp [strncpyBytes]

/-- A NUL-free string with room for its terminator is copied whole. -/
theorem strncpyBytes_eq {src : List UInt8} (h : 0 ∉ src) :
    strncpyBytes src (src.length + 1) = src ++ [0] := by
  have hall : src.takeWhile (· ≠ 0) = src := by
    rw [List.takeWhile_eq_self_iff]
    intro b hb
    simpa using fun h0 : b = 0 => h (h0 ▸ hb)
  have htake : src.take (src.length + 1) = src :=
    List.take_of_length_le (by omega)
  simp only [strncpyBytes, hall, htake]
  simp

/-- The C string `s` stands at `a`, terminator included. -/
def CStr (m : Mem) (a : Nat) (s : List UInt8) : Prop :=
  m.read a (s.length + 1) = s ++ [0]

/-- A string and its NUL are all that makes it one. -/
theorem CStr.congr {m m' : Mem} {a : Nat} {s : List UInt8}
    (h : m.CStr a s) (heq : ∀ i, a ≤ i → i < a + (s.length + 1) → m i = m' i) :
    m'.CStr a s := by
  rw [CStr, ← read_congr heq]
  exact h

/-- A string that is copied with its NUL is one there. -/
theorem cstr_write {m : Mem} {a : Nat} {s : List UInt8} (h : 0 ∉ s) :
    (m.write a (strncpyBytes s (s.length + 1))).CStr a s := by
  have hself := read_write_self m a (s ++ [0])
  rw [List.length_append] at hself
  rw [CStr, strncpyBytes_eq h]
  exact hself

/-- The empty string is a NUL. -/
theorem CStr.nil_iff {m : Mem} {a : Nat} : m.CStr a [] ↔ m a = 0 := by
  simp [CStr, read]

/-- A string from its first byte on. -/
theorem CStr.cons_iff {m : Mem} {a : Nat} {b : UInt8} {s : List UInt8} :
    m.CStr a (b :: s) ↔ m a = b ∧ m.CStr (a + 1) s := by
  rw [CStr, List.length_cons, read_succ, List.cons_append, List.cons.injEq]
  rfl

/-- `strcmp` of the C string at `a` with a NUL-terminated copy of the
NUL-free string `s`: bytes are compared unsigned, a terminator is below
every byte. -/
def strcmp (m : Mem) (a : Nat) : List UInt8 → Ordering
  | [] => if m a = 0 then .eq else .gt
  | b :: s =>
      if m a = b then strcmp m (a + 1) s
      else if m a < b then .lt
      else .gt

/-- On C strings `strcmp` answers equality. -/
theorem strcmp_eq_iff {m : Mem} {a : Nat} {s t : List UInt8}
    (hs : m.CStr a s) (hs0 : 0 ∉ s) (ht0 : 0 ∉ t) :
    m.strcmp a t = .eq ↔ s = t := by
  induction t generalizing a s with
  | nil =>
      cases s with
      | nil => simp [strcmp, CStr.nil_iff.1 hs]
      | cons b s =>
          have hb : m a ≠ 0 := by
            rw [(CStr.cons_iff.1 hs).1]
            exact fun h => hs0 (h ▸ List.mem_cons_self)
          simp [strcmp, hb]
  | cons c t ih =>
      have hc : c ≠ 0 := fun h => ht0 (h ▸ List.mem_cons_self)
      cases s with
      | nil =>
          have ha := CStr.nil_iff.1 hs
          simp only [strcmp, ha, if_neg (Ne.symm hc)]
          split <;> simp
      | cons b s =>
          obtain ⟨hb, hs'⟩ := CStr.cons_iff.1 hs
          have hs0' : 0 ∉ s := fun h => hs0 (List.mem_cons_of_mem _ h)
          have ht0' : 0 ∉ t := fun h => ht0 (List.mem_cons_of_mem _ h)
          by_cases hbc : b = c
          · subst hbc
            simp [strcmp, hb, ih hs' hs0' ht0']
          · simp only [strcmp, hb, List.cons.injEq, hbc, false_and, if_false]
            split <;> simp

/-- On C strings `strcmp` answers the lexicographic order of unsigned
bytes. -/
theorem strcmp_lt_iff {m : Mem} {a : Nat} {s t : List UInt8}
    (hs : m.CStr a s) (ht0 : 0 ∉ t) : m.strcmp a t = .lt ↔ s < t := by
  induction t generalizing a s with
  | nil =>
      simp only [strcmp, List.not_lt_nil, iff_false]
      split <;> simp
  | cons c t ih =>
      have hc : c ≠ 0 := fun h => ht0 (h ▸ List.mem_cons_self)
      cases s with
      | nil =>
          have ha := CStr.nil_iff.1 hs
          have hpos : (0 : UInt8) < c := by
            rw [UInt8.lt_iff_toNat_lt]
            exact Nat.pos_of_ne_zero fun h => hc (UInt8.toNat_inj.1 h)
          simp [strcmp, ha, if_neg (Ne.symm hc), hpos]
      | cons b s =>
          obtain ⟨hb, hs'⟩ := CStr.cons_iff.1 hs
          have ht0' : 0 ∉ t := fun h => ht0 (List.mem_cons_of_mem _ h)
          rw [List.cons_lt_cons_iff]
          by_cases hbc : b = c
          · subst hbc
            have hirr : ¬ b < b := by simp
            simp [strcmp, hb, ih hs' ht0', hirr]
          · simp only [strcmp, hb, hbc, false_and, or_false, if_false]
            split <;> simp_all

end Mem

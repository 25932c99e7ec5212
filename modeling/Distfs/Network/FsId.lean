/-
What the id of a file system says of its blocks
(`network/checksum_engine.cc`, `network/distfs_metadata.cc`).

The id is the product of all characters of all hashes, modulo `2 ^ 64`.
Most even digits have several factors of two. Once the hashes of the other
blocks have 64 of them between them the id is zero, whatever this block is
(`id_depends_iff`); a hash has 60 on average.
-/
import Distfs.Lib.Dyadic
import Distfs.Network.DistfsMetadata

namespace Distfs

-- ============================================================ the checksum

namespace ChecksumEngine

/-- One digit of `%x`. -/
def hexDigitLower (d : Nat) : UInt8 :=
  UInt8.ofNat (if d < 10 then 48 + d else 87 + d)

/-- `checksum`: the digest, as `%02x` prints its bytes. -/
def checksum (sha256 : Bytes → Bytes) (data : Bytes) : Bytes :=
  (sha256 data).flatMap fun b =>
    [hexDigitLower (b.toNat / 16), hexDigitLower (b.toNat % 16)]

/-- A string as `checksum` makes them: 64 digits or letters `a` to `f`. -/
def IsHash (s : Bytes) : Prop :=
  s.length = 64 ∧ ∀ c ∈ s, (48 ≤ c.toNat ∧ c.toNat ≤ 57)
    ∨ (97 ≤ c.toNat ∧ c.toNat ≤ 102)

instance (s : Bytes) : Decidable (IsHash s) :=
  inferInstanceAs (Decidable (_ ∧ _))

theorem toNat_hexDigitLower {d : Nat} (hd : d < 16) :
    (hexDigitLower d).toNat = if d < 10 then 48 + d else 87 + d := by
  unfold hexDigitLower
  rw [UInt8.toNat_ofNat', Nat.mod_eq_of_lt]
  split <;> omega

theorem length_flatMap_pair {α : Type} (f g : α → UInt8) (l : List α) :
    (l.flatMap fun x => [f x, g x]).length = 2 * l.length := by
  induction l with
  | nil => rfl
  | cons x l ih =>
      rw [List.flatMap_cons, List.length_append, ih]
      show 2 + 2 * l.length = 2 * (l.length + 1)
      omega

theorem isHash_checksum {sha256 : Bytes → Bytes} {data : Bytes}
    (h : (sha256 data).length = 32) : IsHash (checksum sha256 data) := by
  refine ⟨?_, fun c hc => ?_⟩
  · unfold checksum
    rw [length_flatMap_pair, h]
  · have hdigit : ∀ d, d < 16 → c = hexDigitLower d →
        (48 ≤ c.toNat ∧ c.toNat ≤ 57) ∨ (97 ≤ c.toNat ∧ c.toNat ≤ 102) := by
      rintro d hd rfl
      rw [toNat_hexDigitLower hd]
      split <;> omega
    obtain ⟨b, -, hb⟩ := List.mem_flatMap.1 hc
    have hlt := b.toNat_lt
    rcases List.mem_cons.1 hb with h | h
    · exact hdigit _ (by omega) h
    · exact hdigit _ (by omega) (List.mem_singleton.1 h)

/-- One digit or letter, 64 times. -/
theorem isHash_replicate {c : UInt8}
    (hc : (48 ≤ c.toNat ∧ c.toNat ≤ 57) ∨ (97 ≤ c.toNat ∧ c.toNat ≤ 102)) :
    IsHash (List.replicate 64 c) := by
  refine ⟨List.length_replicate, fun d hd => ?_⟩
  rw [List.eq_of_mem_replicate hd]
  exact hc

end ChecksumEngine

open ChecksumEngine

-- ================================================================= the id

namespace StoreMetadata

/-- The codes of the characters of a string. -/
def codes (s : Bytes) : List Nat := s.map UInt8.toNat

theorem codes_cons (c : UInt8) (s : Bytes) :
    codes (c :: s) = c.toNat :: codes s := rfl

theorem prod_codes_replicate (n : Nat) (c : UInt8) :
    (codes (List.replicate n c)).prod = c.toNat ^ n := by
  rw [codes, List.map_replicate, List.prod_replicate]

theorem toNat_ofChar {c : UInt8} (h : c.toNat < 128) :
    (ofChar c).toNat = c.toNat := by
  rw [ofChar, if_pos h, UInt8.toNat_toUInt64]

/-- The inner loop multiplies. -/
theorem toNat_foldl_ofChar {s : Bytes} (h : ∀ c ∈ s, c.toNat < 128) :
    ∀ x : UInt64, (s.foldl (fun id c => id * ofChar c) x).toNat
      = x.toNat * (codes s).prod % 2 ^ 64 := by
  induction s with
  | nil =>
      intro x
      show x.toNat = x.toNat * 1 % 2 ^ 64
      rw [Nat.mul_one, Nat.mod_eq_of_lt x.toNat_lt]
  | cons c s ih =>
      intro x
      have hs : ∀ d ∈ s, d.toNat < 128 := fun d hd =>
        h d (List.mem_cons_of_mem _ hd)
      rw [List.foldl_cons, ih hs, UInt64.toNat_mul,
        toNat_ofChar (h c List.mem_cons_self), Nat.mod_mul_mod, codes_cons,
        List.prod_cons, Nat.mul_assoc]

/-- So does the outer one. -/
theorem toNat_hashId {hashes : List Bytes}
    (h : ∀ s ∈ hashes, ∀ c ∈ s, c.toNat < 128) :
    (hashId hashes).toNat = (hashes.flatMap codes).prod % 2 ^ 64 := by
  have hfold : ∀ x : UInt64,
      (hashes.foldl (fun id s => s.foldl (fun id c => id * ofChar c) id)
        x).toNat = x.toNat * (hashes.flatMap codes).prod % 2 ^ 64 := by
    induction hashes with
    | nil =>
        intro x
        show x.toNat = x.toNat * 1 % 2 ^ 64
        rw [Nat.mul_one, Nat.mod_eq_of_lt x.toNat_lt]
    | cons s hashes ih =>
        intro x
        have hrest : ∀ t ∈ hashes, ∀ c ∈ t, c.toNat < 128 := fun t ht =>
          h t (List.mem_cons_of_mem _ ht)
        rw [List.foldl_cons, ih hrest,
          toNat_foldl_ofChar (h s List.mem_cons_self), Nat.mod_mul_mod,
          List.flatMap_cons, List.prod_append, Nat.mul_assoc]
  have hone := hfold 1
  rw [show (1 : UInt64).toNat = 1 from rfl, Nat.one_mul] at hone
  exact hone

/-- Every character of a hash is ASCII, and not NUL. -/
theorem codes_of_isHash {s : Bytes} (h : IsHash s) :
    (∀ c ∈ s, c.toNat < 128) ∧ ∀ n ∈ codes s, n ≠ 0 := by
  refine ⟨fun c hc => ?_, fun n hn => ?_⟩
  · rcases h.2 c hc with hd | hd <;> omega
  · obtain ⟨c, hc, rfl⟩ := List.mem_map.1 hn
    rcases h.2 c hc with hd | hd <;> omega

section Substitution

variable {hashes : List Bytes} (h : ∀ s ∈ hashes, IsHash s) {i : Nat}
  (hi : i < hashes.length)

include h hi in
/-- The id with one hash substituted is the product of that hash and of the
others. -/
theorem toNat_hashId_set {s : Bytes} (hs : IsHash s) :
    (hashId (hashes.set i s)).toNat
      = (codes s).prod * ((hashes.eraseIdx i).flatMap codes).prod
        % 2 ^ 64 := by
  have hperm : (hashes.set i s).Perm (s :: hashes.eraseIdx i) :=
    List.set_perm_cons_eraseIdx hi s
  rw [toNat_hashId, (hperm.flatMap_right codes).prod_eq, List.flatMap_cons,
    List.prod_append]
  intro r hr
  rcases List.mem_or_eq_of_mem_set hr with hr | rfl
  · exact (codes_of_isHash (h r hr)).1
  · exact (codes_of_isHash hs).1

include h hi in
/-- The id depends on a block exactly if the hashes of the others have
fewer than 64 factors of two. -/
theorem id_depends_iff :
    (∃ s, IsHash s ∧ hashId (hashes.set i s) ≠ hashId hashes)
      ↔ Dyadic.twos ((hashes.eraseIdx i).flatMap codes) < 64 := by
  have hself : hashes = hashes.set i hashes[i] :=
    (List.set_getElem_self hi).symm
  have hcurrent : IsHash hashes[i] := h _ (List.getElem_mem hi)
  have hne : ∀ n ∈ (hashes.eraseIdx i).flatMap codes, n ≠ 0 := by
    intro n hn
    obtain ⟨s, hs, hn⟩ := List.mem_flatMap.1 hn
    exact (codes_of_isHash (h s (List.mem_of_mem_eraseIdx hs))).2 n hn
  have hdvd := Dyadic.two_pow_dvd_prod_iff hne 64
  constructor
  · rintro ⟨s, hs, hdiffer⟩
    by_contra hmany
    -- both ids are zero
    have hzero := hdvd.2 (Nat.not_lt.1 hmany)
    apply hdiffer
    apply UInt64.toNat_inj.1
    conv_rhs => rw [hself]
    rw [toNat_hashId_set h hi hs, toNat_hashId_set h hi hcurrent,
      Dyadic.mul_mod_eq_zero hzero, Dyadic.mul_mod_eq_zero hzero]
  · intro hfew
    have hnot : ¬ 2 ^ 64 ∣ ((hashes.eraseIdx i).flatMap codes).prod :=
      fun hd => absurd (hdvd.1 hd) (Nat.not_le.2 hfew)
    -- a hash of the other parity
    by_cases heven : 2 ∣ (codes hashes[i]).prod
    · have hs : IsHash (List.replicate 64 97) := isHash_replicate (by decide)
      have hodd : ¬ 2 ∣ (codes (List.replicate 64 97)).prod := by
        rw [prod_codes_replicate]
        intro hd
        exact absurd (Nat.prime_two.dvd_of_dvd_pow hd) (by decide)
      refine ⟨_, hs, fun heq => ?_⟩
      have hmod := congrArg UInt64.toNat heq
      conv at hmod => rhs; rw [hself]
      rw [toNat_hashId_set h hi hs, toNat_hashId_set h hi hcurrent] at hmod
      exact Dyadic.mul_mod_ne hnot hodd heven hmod
    · have hs : IsHash (List.replicate 64 48) := isHash_replicate (by decide)
      have hpow : 2 ∣ (codes (List.replicate 64 48)).prod := by
        rw [prod_codes_replicate]
        apply dvd_pow
        · decide
        · decide
      refine ⟨_, hs, fun heq => ?_⟩
      have hmod := congrArg UInt64.toNat heq
      conv at hmod => rhs; rw [hself]
      rw [toNat_hashId_set h hi hs, toNat_hashId_set h hi hcurrent] at hmod
      exact Dyadic.mul_mod_ne hnot heven hpow hmod.symm

end Substitution

/-- Two blocks, the hash of the other one all `a`. -/
theorem id_depends_letters :
    (∃ s, IsHash s
        ∧ hashId ([List.replicate 64 97, List.replicate 64 97].set 0 s)
          ≠ hashId [List.replicate 64 97, List.replicate 64 97])
      ↔ Dyadic.twos
        (([List.replicate 64 97, List.replicate 64 97].eraseIdx 0).flatMap
          codes) < 64 := by
  apply id_depends_iff
  · intro s hs
    rcases List.mem_pair.1 hs with rfl | rfl
    · exact isHash_replicate (by decide)
    · exact isHash_replicate (by decide)
  · decide

/-- Two blocks, the hash of the other one all zeros: the id is zero. -/
theorem id_ignores_first :
    (∀ s ∈ [List.replicate 64 97, List.replicate 64 48], IsHash s)
      ∧ ¬ ∃ s, IsHash s
        ∧ hashId ([List.replicate 64 97, List.replicate 64 48].set 0 s)
          ≠ hashId [List.replicate 64 97, List.replicate 64 48] := by
  have hzeros : IsHash (List.replicate 64 48) := isHash_replicate (by decide)
  have hdvd : 2 ^ 64 ∣ (codes (List.replicate 64 48)).prod := by
    rw [prod_codes_replicate]
    apply pow_dvd_pow_of_dvd
    decide
  have hzero : ∀ s, hashId [s, List.replicate 64 48] = 0 := by
    intro s
    apply UInt64.toNat_inj.1
    rw [hashId, List.foldl_cons, List.foldl_cons, List.foldl_nil,
      toNat_foldl_ofChar (codes_of_isHash hzeros).1,
      Dyadic.mul_mod_eq_zero hdvd]
    rfl
  constructor
  · intro s hs
    rcases List.mem_pair.1 hs with rfl | rfl
    · exact isHash_replicate (by decide)
    · exact hzeros
  rintro ⟨s, -, hdiffer⟩
  apply hdiffer
  show hashId [s, List.replicate 64 48] = _
  rw [hzero, hzero]

end StoreMetadata

end Distfs

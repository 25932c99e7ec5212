/-
The block format of LZ4.

A block is a list of sequences. Each has a token, literals, and a match: a
copy of what was put out before, which may overlap with itself. The last
one ends with its literals. `decode` takes any block apart.

`runs` is a codec of this format that looks for one kind of match only, a
run of zeros at the end. It is enough for the chunks of a small file
system, which are zeros for the most part.
-/
import Distfs.Data.CompressedStore

namespace Distfs

namespace Lz4

-- ========================================================== the decoder

/-- A length with its first four bits in the token: 15 there is continued
by bytes, of which the first below 255 is the last one. -/
def continued (nibble : Nat) (block : Bytes) : Nat × Bytes :=
  if nibble < 15 then (nibble, block)
  else
    let rest := block.dropWhile (· = 255)
    (15 + 255 * (block.takeWhile (· = 255)).length + (rest.headD 0).toNat,
      rest.drop 1)

/-- Byte after byte from `offset` bytes back. -/
def copyBack (out : Bytes) (offset : Nat) : Nat → Bytes
  | 0 => out
  | n + 1 => copyBack (out ++ [out.getD (out.length - offset) 0]) offset n

/-- The sequences of a block; `none` if it is malformed. -/
def decode : Nat → Bytes → Bytes → Option Bytes
  | 0, _, _ => none
  | _ + 1, _, [] => none
  | fuel + 1, out, token :: block =>
      let (n, block) := continued (token.toNat / 16) block
      if block.length < n then none
      else
        let out := out ++ block.take n
        match block.drop n with
        | [] => some out
        | [_] => none
        | lo :: hi :: rest =>
            let (m, rest) := continued (token.toNat % 16) rest
            let offset := lo.toNat + 256 * hi.toNat
            if offset = 0 ∨ out.length < offset then none
            else decode fuel (copyBack out offset (m + 4)) rest

-- ======================================================= the compressor

/-- The token of `n` literals and a match of `m + 4` bytes. -/
def token (n m : Nat) : UInt8 := UInt8.ofNat (min n 15 * 16 + min m 15)

/-- What of a length is not in the token. -/
def continuation (n : Nat) : Bytes :=
  if n < 15 then [] else runLength (n - 15)

/-- The last sequence of a block. -/
def lastSequence (src : Bytes) : Bytes :=
  token src.length 0 :: (continuation src.length ++ src)

/-- Literals, and the last of them `m + 4` times again. -/
def runSequence (src : Bytes) (m : Nat) : Bytes :=
  token src.length m
    :: (continuation src.length ++ (src ++ 1 :: 0 :: continuation m))

/-- How many bytes at the end are zero. -/
def zerosAtEnd (src : Bytes) : Nat := (src.reverse.takeWhile (· = 0)).length

/-- The block of a source. As the format wants it, the last match starts
twelve bytes before the end at the latest, and the last five bytes are
literals. -/
def runsBlock (src : Bytes) : Bytes :=
  let k := zerosAtEnd src
  if k < 13 then lastSequence src
  else
    runSequence (src.take (src.length - (k - 1))) (k - 10)
      ++ lastSequence (List.replicate 5 0)

/-- The codec. -/
def runs : Lz4 where
  compressDefault src cap :=
    let out := runsBlock src
    if out.length ≤ cap then ((out.length : Int), out) else (0, [])
  decompressSafe block cap :=
    match decode block.length [] block with
    | none => (-1, [])
    | some out =>
        if out.length ≤ cap then ((out.length : Int), out) else (-1, [])

-- ======================================================== the round trip

theorem token_literals (n m : Nat) : (token n m).toNat / 16 = min n 15 := by
  rw [token, UInt8.toNat_ofNat', Nat.mod_eq_of_lt (by omega)]
  omega

theorem token_match (n m : Nat) : (token n m).toNat % 16 = min m 15 := by
  have hbyte : min n 15 * 16 + min m 15 < 2 ^ 8 := by omega
  rw [token, UInt8.toNat_ofNat', Nat.mod_eq_of_lt hbyte]
  omega

theorem takeWhile_runLength (n : Nat) (rest : Bytes) :
    ((runLength n ++ rest).takeWhile (· = 255)).length = n / 255
      ∧ (runLength n ++ rest).dropWhile (· = 255)
        = UInt8.ofNat (n % 255) :: rest := by
  have hlast : UInt8.ofNat (n % 255) ≠ 255 := by
    intro h
    have h' := congrArg UInt8.toNat h
    rw [UInt8.toNat_ofNat', Nat.mod_eq_of_lt (by omega)] at h'
    have : n % 255 = 255 := h'
    omega
  unfold runLength
  induction n / 255 with
  | zero => simp [hlast]
  | succ k ih =>
      rw [List.replicate_succ, List.cons_append, List.cons_append,
        List.takeWhile_cons_of_pos (by simp),
        List.dropWhile_cons_of_pos (by simp), List.length_cons, ih.1]
      exact ⟨rfl, ih.2⟩

/-- The length is found again. -/
theorem continued_continuation (n : Nat) (rest : Bytes) :
    continued (min n 15) (continuation n ++ rest) = (n, rest) := by
  unfold continued continuation
  by_cases hn : n < 15
  · rw [if_pos (by omega), if_pos hn, Nat.min_eq_left (Nat.le_of_lt hn)]
    rfl
  · obtain ⟨hcount, hrest⟩ := takeWhile_runLength (n - 15) rest
    have hmod : (UInt8.ofNat ((n - 15) % 255)).toNat = (n - 15) % 255 := by
      rw [UInt8.toNat_ofNat', Nat.mod_eq_of_lt (by omega)]
    rw [if_neg (by omega), if_neg hn]
    simp only [hcount, hrest, List.headD_cons, hmod, List.drop_succ_cons,
      List.drop_zero]
    rw [Prod.mk.injEq]
    exact ⟨by omega, rfl⟩

theorem decode_last (fuel : Nat) (out src : Bytes) :
    decode (fuel + 1) out (lastSequence src) = some (out ++ src) := by
  rw [lastSequence, decode]
  simp only [token_literals, continued_continuation, Nat.lt_irrefl,
    if_false, List.take_length, List.drop_length]

theorem decode_run (fuel : Nat) (out src rest : Bytes) (m : Nat)
    (hsrc : src ≠ []) :
    decode (fuel + 1) out (runSequence src m ++ rest)
      = decode fuel (copyBack (out ++ src) 1 (m + 4)) rest := by
  have hlen := List.length_pos_iff.2 hsrc
  rw [runSequence, List.cons_append, List.append_assoc, List.append_assoc,
    decode]
  simp only [token_literals, token_match, continued_continuation]
  rw [if_neg (by rw [List.length_append]; omega), List.take_left' rfl,
    List.drop_left' rfl]
  simp only [List.cons_append, continued_continuation]
  rw [if_neg]
  · rfl
  · rw [List.length_append]
    show ¬ ((1 : Nat) + 256 * 0 = 0 ∨ out.length + src.length < 1 + 256 * 0)
    omega

/-- A match one byte back repeats that byte. -/
theorem copyBack_one (out : Bytes) (x : UInt8) (n : Nat) :
    copyBack (out ++ [x]) 1 n = out ++ [x] ++ List.replicate n x := by
  induction n generalizing out with
  | zero => rw [copyBack, List.replicate_zero, List.append_nil]
  | succ n ih =>
      have hlast : (out ++ [x]).getD ((out ++ [x]).length - 1) 0 = x := by
        rw [List.length_append, List.length_singleton, Nat.add_sub_cancel,
          List.getD_append_right _ _ _ _ (Nat.le_refl _), Nat.sub_self]
        rfl
      rw [copyBack, hlast, ih (out ++ [x]), List.replicate_succ,
        List.append_assoc (out ++ [x])]
      rfl

/-- A source ends with the zeros that were counted. -/
theorem eq_append_zeros (src : Bytes) :
    ∃ lits, src = lits ++ List.replicate (zerosAtEnd src) 0 := by
  have hall : src.reverse.takeWhile (· = 0)
      = List.replicate (zerosAtEnd src) 0 := by
    refine List.eq_replicate_iff.2 ⟨rfl, fun x hx => ?_⟩
    simpa using List.mem_takeWhile_imp hx
  refine ⟨(src.reverse.dropWhile (· = 0)).reverse, ?_⟩
  rw [← List.reverse_replicate, ← hall, ← List.reverse_append,
    List.takeWhile_append_dropWhile, List.reverse_reverse]

/-- The block of a source decodes to it. -/
theorem decode_runsBlock (src : Bytes) :
    decode (runsBlock src).length [] (runsBlock src) = some src := by
  obtain ⟨lits, hsrc⟩ := eq_append_zeros src
  unfold runsBlock
  simp only
  generalize zerosAtEnd src = k at hsrc
  by_cases hk : k < 13
  · rw [if_pos hk, lastSequence, List.length_cons, ← lastSequence,
      decode_last, List.nil_append]
  · have hlen : src.length = lits.length + k := by
      rw [hsrc, List.length_append, List.length_replicate]
    have hzeros : List.replicate k (0 : UInt8)
        = 0 :: List.replicate (k - 1) 0 := by
      rw [← List.replicate_succ]
      congr 1
      omega
    have htake : src.take (src.length - (k - 1)) = lits ++ [0] := by
      rw [hlen, hsrc, hzeros, List.append_cons,
        List.take_left' (by rw [List.length_append, List.length_singleton]
                            omega)]
    have htwo : 2 ≤ (runSequence (lits ++ [0]) (k - 10)
        ++ lastSequence (List.replicate 5 0)).length := by
      rw [runSequence, lastSequence, List.length_append, List.length_cons,
        List.length_cons]
      omega
    obtain ⟨n, hn⟩ := Nat.exists_eq_add_of_le' htwo
    have hcount : k - 1 = k - 10 + 4 + 5 := by omega
    rw [if_neg hk, htake, hn, decode_run _ _ _ _ _ (by simp),
      List.nil_append, copyBack_one, decode_last, hsrc, hzeros,
      List.append_assoc, List.append_assoc, List.replicate_append_replicate,
      ← hcount]
    rfl

theorem runs_documented : runs.Documented := by
  refine ⟨fun src cap => ?_, fun src cap cap' hfits hcap' => ?_,
    fun cap => ?_⟩
  · by_cases hle : (runsBlock src).length ≤ cap
    · have hout : runs.compressDefault src cap
          = (((runsBlock src).length : Int), runsBlock src) := if_pos hle
      rw [hout]
      exact ⟨Int.natCast_nonneg _, Int.ofNat_le.2 hle, rfl⟩
    · have hout : runs.compressDefault src cap = (0, []) := if_neg hle
      rw [hout]
      exact ⟨Int.le_refl _, Int.natCast_nonneg _, rfl⟩
  · by_cases hle : (runsBlock src).length ≤ cap
    · have hout : runs.compressDefault src cap
          = (((runsBlock src).length : Int), runsBlock src) := if_pos hle
      rw [hout]
      simp only [runs, decode_runsBlock, if_pos hcap']
    · have hout : runs.compressDefault src cap = (0, []) := if_neg hle
      rw [Fits, hout] at hfits
      exact absurd hfits (lt_irrefl _)
  · show (-1 : Int) < 0
    decide

/-- What fits is put out as its block. -/
theorem runs_block {src : Bytes} {cap : Nat} (h : runs.Fits src cap) :
    (runs.compressDefault src cap).2 = runsBlock src := by
  by_cases hle : (runsBlock src).length ≤ cap
  · have hout : runs.compressDefault src cap
        = (((runsBlock src).length : Int), runsBlock src) := if_pos hle
    rw [hout]
  · have hout : runs.compressDefault src cap = (0, []) := if_neg hle
    rw [Fits, hout] at h
    exact absurd h (lt_irrefl _)

/-- The first token of a block has literals. -/
theorem runsBlock_token {src : Bytes} (hsrc : src ≠ []) :
    ∃ x rest, runsBlock src = x :: rest ∧ 16 ≤ x.toNat := by
  have hpos := List.length_pos_iff.2 hsrc
  have htoken : ∀ n m, 0 < n → 16 ≤ (token n m).toNat := by
    intro n m hn
    have hdiv := token_literals n m
    omega
  have hzeros : zerosAtEnd src ≤ src.length := by
    rw [zerosAtEnd, ← @List.length_reverse _ src]
    exact (List.takeWhile_sublist _).length_le
  unfold runsBlock
  simp only
  split
  · exact ⟨_, _, rfl, htoken _ _ hpos⟩
  · refine ⟨_, _, List.cons_append, htoken _ _ ?_⟩
    rw [List.length_take]
    omega

theorem le_zerosAtEnd (lits : Bytes) (k : Nat) :
    k ≤ zerosAtEnd (lits ++ List.replicate k 0) := by
  rw [zerosAtEnd, List.reverse_append, List.reverse_replicate,
    List.takeWhile_append_of_pos (by simp), List.length_append,
    List.length_replicate]
  exact Nat.le_add_right _ _

theorem length_continuation_le (n : Nat) :
    (continuation n).length ≤ n / 255 + 1 := by
  unfold continuation
  split
  · exact Nat.zero_le _
  · rw [runLength, List.length_append, List.length_replicate,
      List.length_singleton]
    omega

/-- What ends with zeros fits, if what is before them does. -/
theorem runs_fits (lits : Bytes) {k cap : Nat} (hk : 13 ≤ k)
    (hcap : lits.length + (lits.length + 1) / 255 + (lits.length + k) / 255
      + 13 ≤ cap) : runs.Fits (lits ++ List.replicate k 0) cap := by
  have hle := le_zerosAtEnd lits k
  have hblock : 0 < (runsBlock (lits ++ List.replicate k 0)).length
      ∧ (runsBlock (lits ++ List.replicate k 0)).length ≤ cap := by
    have hall : zerosAtEnd (lits ++ List.replicate k 0)
        ≤ lits.length + k := by
      rw [zerosAtEnd]
      refine (List.takeWhile_sublist _).length_le.trans (Nat.le_of_eq ?_)
      rw [List.length_reverse, List.length_append, List.length_replicate]
    unfold runsBlock
    simp only
    generalize zerosAtEnd (lits ++ List.replicate k 0) = n at hle hall
    have hfirst := length_continuation_le (lits.length + k - (n - 1))
    have hmatch := length_continuation_le (n - 10)
    have hfive : (continuation 5).length = 0 := rfl
    rw [if_neg (by omega), runSequence, lastSequence]
    simp only [List.length_append, List.length_cons, List.length_take,
      List.length_replicate, hfive]
    rw [Nat.min_eq_left (by omega)]
    omega
  have hout : runs.compressDefault (lits ++ List.replicate k 0) cap
      = (((runsBlock (lits ++ List.replicate k 0)).length : Int),
        runsBlock (lits ++ List.replicate k 0)) := if_pos hblock.2
  rw [Fits, hout]
  exact Int.ofNat_lt.2 hblock.1

/-- In particular what is zero from `n` on. -/
theorem runs_fits_of_zeros {src : Bytes} {n cap : Nat}
    (hzeros : ∀ i, n ≤ i → i < src.length → src[i]? = some 0)
    (hn : n + 13 ≤ src.length)
    (hcap : n + (n + 1) / 255 + src.length / 255 + 13 ≤ cap) :
    runs.Fits src cap := by
  have htake : (src.take n).length = n := by
    rw [List.length_take]
    omega
  have hrest : src.drop n = List.replicate (src.length - n) 0 := by
    refine List.eq_replicate_iff.2 ⟨List.length_drop, fun x hx => ?_⟩
    obtain ⟨i, hi, rfl⟩ := List.mem_iff_getElem.1 hx
    rw [List.length_drop] at hi
    have hzero := hzeros (n + i) (Nat.le_add_right _ _) (by omega)
    rw [List.getElem_drop]
    exact (List.getElem?_eq_some_iff.1 hzero).2
  rw [← List.take_append_drop n src, hrest]
  refine runs_fits _ (by omega) ?_
  rw [htake, Nat.add_sub_cancel' (by omega)]
  exact hcap

end Lz4

end Distfs

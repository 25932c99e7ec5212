/-
`data/data_provider.{h,cc}`: the chunks as one flat address space.

A read goes chunk by chunk. `read_size` is a variable without a value
until `read_chunk` sets it: `unset` says what it holds when that does
not happen, for each turn (they differ in what is left to read).
-/
import Distfs.Data.ChunkProvider

namespace Distfs

namespace DataProvider

variable {σ : Type} (ops : ChunkOps σ)
  (client : UInt32 → σ → ErrorCode × σ) (heap : Nat → Mem)
  (unset : Nat → Nat)

/-- An offset into a chunk. -/
abbrev Offset := { n : Nat // n < chunkSizeBytes }

/-- The loop of `read`: the error code, and what was copied to the
buffer. -/
def readFrom (p : ChunkProvider σ) (id : UInt32) (of : Offset)
    (length : Nat) : Option (ErrorCode × Bytes × ChunkProvider σ) :=
  if _h : 0 < length then
    let len := min length (chunkSizeBytes - of.1)
    match p.readChunk ops client heap id of.1 len with
    | none => none
    | some (r, p) =>
        if r.readSize.getD (unset length) ≠ len then
          some (.internalError, r.bytes, p)
        else if r.err ≠ .ok then some (r.err, r.bytes, p)
        else
          match readFrom p (id + 1) ⟨0, chunkSizeBytes_pos⟩
              (length - len) with
          | none => none
          | some (err, bytes, p) => some (err, r.bytes ++ bytes, p)
  else some (.ok, [], p)
termination_by length
decreasing_by
  have := of.2
  omega

/-- `read`. -/
def read (p : ChunkProvider σ) (offset length : Nat) :
    Option (ErrorCode × Bytes × ChunkProvider σ) :=
  readFrom ops client heap unset p
    (UInt32.ofNat (offset / chunkSizeBytes))
    ⟨offset % chunkSizeBytes, Nat.mod_lt _ chunkSizeBytes_pos⟩ length

-- ======================================================= a flat read

/-- The chunks hold the bytes `bs` at the flat address `a`. -/
def Covers (chunks : UInt32 → Option Bytes) (a : Nat) (bs : Bytes) : Prop :=
  ∀ i, i < bs.length →
    ∃ chunk, chunks (UInt32.ofNat ((a + i) / chunkSizeBytes)) = some chunk
      ∧ chunk[(a + i) % chunkSizeBytes]? = bs[i]?

theorem Covers.drop {chunks : UInt32 → Option Bytes} {a : Nat} {bs : Bytes}
    (h : Covers chunks a bs) (n : Nat) :
    Covers chunks (a + n) (bs.drop n) := by
  intro i hi
  rw [List.length_drop] at hi
  obtain ⟨c, hc, hbyte⟩ := h (n + i) (by omega)
  rw [← Nat.add_assoc] at hc hbyte
  exact ⟨c, hc, by rw [hbyte, List.getElem?_drop]⟩

/-- The flat address space of the chunks; zero where there is none. -/
def addressSpace (chunks : UInt32 → Option Bytes) : Mem := fun a =>
  match chunks (UInt32.ofNat (a / chunkSizeBytes)) with
  | none => 0
  | some c => c.getD (a % chunkSizeBytes) 0

/-- What the chunks hold stands in their address space. -/
theorem Covers.read {chunks : UInt32 → Option Bytes} {a : Nat} {bs : Bytes}
    (h : Covers chunks a bs) :
    (addressSpace chunks).read a bs.length = bs := by
  refine List.ext_getElem (Mem.length_read _ _ _) fun i hi hi' => ?_
  obtain ⟨c, hc, hbyte⟩ := h i hi'
  rw [Mem.getElem_read, addressSpace, hc]
  simp only
  rw [List.getD_eq_getElem?_getD, hbyte, List.getElem?_eq_getElem hi']
  rfl

/-- Up to the end of the first chunk the bytes are a slice of it. -/
theorem Covers.slice {chunks : UInt32 → Option Bytes} {a n : Nat}
    {bs : Bytes} (h : Covers chunks a bs) (hpos : 0 < bs.length)
    (hn : n ≤ bs.length) (hfit : a % chunkSizeBytes + n ≤ chunkSizeBytes)
    (hwhole : ∀ id c, chunks id = some c → c.length = chunkSizeBytes) :
    ∃ c, chunks (UInt32.ofNat (a / chunkSizeBytes)) = some c
      ∧ (c.drop (a % chunkSizeBytes)).take n = bs.take n := by
  obtain ⟨c, hc, -⟩ := h 0 hpos
  rw [Nat.add_zero] at hc
  refine ⟨c, hc, List.ext_getElem? fun i => ?_⟩
  have hlen := hwhole _ c hc
  rcases Nat.lt_or_ge i n with hi | hi
  · have hdiv := Nat.div_add_mod a chunkSizeBytes
    have ha : a + i = a % chunkSizeBytes + i
        + chunkSizeBytes * (a / chunkSizeBytes) := by omega
    have hsmall : a % chunkSizeBytes + i < chunkSizeBytes := by omega
    obtain ⟨c', hc', hbyte⟩ := h i (by omega)
    rw [ha, Nat.add_mul_div_left _ _ chunkSizeBytes_pos,
      Nat.div_eq_of_lt hsmall, Nat.zero_add, hc, Option.some.injEq] at hc'
    rw [ha, Nat.add_mul_mod_self_left, Nat.mod_eq_of_lt hsmall, ← hc']
      at hbyte
    rw [List.getElem?_take_of_lt hi, List.getElem?_take_of_lt hi,
      List.getElem?_drop, hbyte]
  · rw [List.getElem?_eq_none (by rw [List.length_take]; omega),
      List.getElem?_eq_none (by rw [List.length_take]; omega)]

section Flat

variable {ops : ChunkOps σ} {ready : σ → Prop}
  {view : σ → UInt32 → Option Bytes} {room : UInt32 → Prop}
  {chunks : UInt32 → Option Bytes}
  (hf : ops.Faithful ready view room)
  (hwhole : ∀ id c, chunks id = some c → c.length = chunkSizeBytes)

include hf hwhole in
/-- Where the chunks hold the bytes asked for, `read` delivers them. -/
theorem read_spec (bs : Bytes) :
    ∀ (a : Nat) (p : ChunkProvider σ), Covers chunks a bs →
      p.Serving ready view chunks →
      ∃ p', read ops client heap unset p a bs.length = some (.ok, bs, p')
        ∧ p'.Serving ready view chunks := by
  induction hlen : bs.length using Nat.strong_induction_on
    generalizing bs with
  | _ n ih =>
      intro a p hcovers hserving
      unfold read
      rw [readFrom]
      rcases Nat.eq_zero_or_pos n with rfl | hpos
      · rw [dif_neg (by omega)]
        rw [List.length_eq_zero_iff.1 hlen]
        exact ⟨p, rfl, hserving⟩
      · rw [dif_pos hpos]
        have hmod := Nat.mod_lt a chunkSizeBytes_pos
        have hdiv := Nat.div_add_mod a chunkSizeBytes
        simp only
        generalize hk : min n (chunkSizeBytes - a % chunkSizeBytes) = k
        obtain ⟨c, hc, hslice⟩ := hcovers.slice (n := k) (by omega) (by omega)
          (by omega) hwhole
        obtain ⟨p', hread, hserving'⟩ := hserving.readChunk client heap hf
          hwhole hc (show a % chunkSizeBytes + k ≤ chunkSizeBytes by omega)
        rw [hread, hslice]
        simp only [Option.getD_some, ne_eq, not_true_eq_false, if_false]
        -- what is left starts the next chunk, if there is anything left
        have hrest : ∃ p'', readFrom ops client heap unset p'
            (UInt32.ofNat (a / chunkSizeBytes) + 1) ⟨0, chunkSizeBytes_pos⟩
            (n - k) = some (.ok, bs.drop k, p'')
            ∧ p''.Serving ready view chunks := by
          rcases Nat.eq_zero_or_pos (n - k) with hzero | hmore
          · rw [hzero, readFrom, dif_neg (by omega),
              List.drop_eq_nil_of_le (by omega)]
            exact ⟨p', rfl, hserving'⟩
          · obtain ⟨p'', hread', hserving''⟩ := ih (n - k) (by omega)
              (bs.drop k) (by rw [List.length_drop, hlen]) (a + k) p'
              (hcovers.drop k) hserving'
            have hak : a + k = chunkSizeBytes * (a / chunkSizeBytes + 1) := by
              rw [Nat.mul_add]
              omega
            have hnext :
            (a + k) / chunkSizeBytes = a / chunkSizeBytes + 1 := by
              rw [hak, Nat.mul_div_cancel_left _ chunkSizeBytes_pos]
            have hstart : (a + k) % chunkSizeBytes = 0 := by
              rw [hak, Nat.mul_mod_right]
            refine ⟨p'', ?_, hserving''⟩
            unfold read at hread'
            simp only [hnext, hstart, UInt32.ofNat_add] at hread'
            exact hread'
        obtain ⟨p'', hread', hserving''⟩ := hrest
        rw [hread']
        refine ⟨p'', ?_, hserving''⟩
        simp only [List.take_append_drop]

end Flat

end DataProvider

end Distfs

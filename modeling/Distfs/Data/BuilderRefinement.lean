/-
`ChunkBuilder` refines a flat byte file with a cursor.

# The invariant

`Content` relates buffer and store to the bytes written so far: those of
the chunk in memory are in the buffer, all others in the store. It says
nothing of the cursor. `Refines` adds where the cursor is.

# How it is carried

`movePos_spec` flushes, and reloads if there is something to reload; it
is the only place where the store changes. `putPart` is one turn of the
loop of `write_data`: copy up to the chunk's end, then `move_pos`. All
else is induction over the data, the file, and the calls.
-/
import Distfs.Data.ChunkBuilder
import Distfs.Lib.FlatFile

namespace Distfs

open Transfer

namespace ChunkBuilder

-- ============================================== the flat meaning

/-- What a call means for the flat file. -/
def flat (f : FlatFile) : Request → FlatFile
  | .addFile (.opened fd) => f.put fd.rest
  | .addFile _ => f
  | .reserve length => f.seek (f.cursor + length)
  | .write offset data => (f.seek offset).put data

/-- What a call hands back when everything succeeds. -/
def flatReply (f : FlatFile) : Request → Reply
  | .addFile .notFound => { err := .notFound, offset := 0, length := 0 }
  | .addFile .denied => { err := .accessDenied, offset := 0, length := 0 }
  | .addFile (.opened fd) =>
      { err := .ok, offset := f.cursor, length := fd.rest.length }
  | .reserve _ => { err := .ok, offset := f.cursor, length := 0 }
  | .write _ _ => { err := .ok, offset := 0, length := 0 }

/-- What a sequence of calls means for the flat file. -/
def flatAll (f : FlatFile) (rs : List Request) : FlatFile := rs.foldl flat f

/-- The replies to a sequence of calls. -/
def flatReplies (f : FlatFile) : List Request → List Reply
  | [] => []
  | r :: rs => flatReply f r :: flatReplies (flat f r) rs

/-- The call stays at addresses up to `top`, and the reads of its source
file succeed. -/
def Admissible (top : Nat) (f : FlatFile) : Request → Prop
  | .addFile (.opened fd) =>
      f.cursor + fd.rest.length ≤ top ∧ ∀ c ∈ fd.script, c.Progress
  | .addFile _ => True
  | .reserve length => f.cursor + length ≤ top
  | .write offset data => offset + data.length ≤ top

/-- Every call of the sequence is admissible where it is made. -/
def AllAdmissible (top : Nat) (f : FlatFile) : List Request → Prop
  | [] => True
  | r :: rs => Admissible top f r ∧ AllAdmissible top (flat f r) rs

-- ================================================ the invariant

/-- Buffer and store hold the bytes written so far: the buffer those of
the chunk in memory, the store all others. -/
structure Content {σ : Type} (view : σ → UInt32 → Option Bytes)
    (b : ChunkBuilder σ) (bytes : Nat → Option UInt8) : Prop where
  bound : ∀ a v, bytes a = some v → a / chunkSizeBytes < 2 ^ 32
  buff : ∀ a v, bytes a = some v → a / chunkSizeBytes = b.chunkNum.toNat →
    b.buff (a % chunkSizeBytes) = v
  stored : ∀ a v, bytes a = some v →
    a / chunkSizeBytes ≠ b.chunkNum.toNat →
    ∃ chunk, view b.store (UInt32.ofNat (a / chunkSizeBytes)) = some chunk
      ∧ chunk[a % chunkSizeBytes]? = some v
  whole : ∀ id c, view b.store id = some c → c.length = chunkSizeBytes

/-- The builder stands for the flat file. -/
structure Refines {σ : Type} (ready : σ → Prop)
    (view : σ → UInt32 → Option Bytes) (top : Nat) (b : ChunkBuilder σ)
    (f : FlatFile) : Prop where
  ready : ready b.store
  content : Content view b f.bytes
  pos : b.pos = f.cursor
  num : b.chunkNum = UInt32.ofNat (f.cursor / chunkSizeBytes)
  cursor : f.cursor ≤ top

section Steps

variable {σ : Type} {ops : ChunkOps σ} {ready : σ → Prop}
  {view : σ → UInt32 → Option Bytes} {top : Nat}
  {b : ChunkBuilder σ} {f : FlatFile}

theorem toNat_ofNat_of_lt {n : Nat} (h : n < 2 ^ 32) :
    (UInt32.ofNat n).toNat = n := by
  rw [UInt32.toNat_ofNat', Nat.mod_eq_of_lt h]

/-- There is room for the chunk of every address up to `top`. -/
theorem room_of_le {a : Nat} (h : a ≤ top) :
    (UInt32.ofNat (a / chunkSizeBytes)).toNat ≤ top / chunkSizeBytes := by
  rw [UInt32.toNat_ofNat']
  exact Nat.le_trans (Nat.mod_le _ _) (Nat.div_le_div_right h)

/-- Once the chunk in memory is flushed, the store holds everything. -/
theorem Content.flushed {bytes : Nat → Option UInt8} {s' : σ}
    (h : Content view b bytes)
    (hview : ∀ i, view s' i = if i = b.chunkNum
      then some (b.buff.read 0 chunkSizeBytes) else view b.store i) :
    (∀ a v, bytes a = some v →
        ∃ chunk, view s' (UInt32.ofNat (a / chunkSizeBytes)) = some chunk
          ∧ chunk[a % chunkSizeBytes]? = some v)
      ∧ ∀ id c, view s' id = some c → c.length = chunkSizeBytes := by
  constructor
  · intro a v ha
    have hlt := h.bound a v ha
    rw [hview]
    by_cases hcur : a / chunkSizeBytes = b.chunkNum.toNat
    · have hmod := Nat.mod_lt a chunkSizeBytes_pos
      rw [if_pos (by rw [hcur, UInt32.ofNat_toNat])]
      refine ⟨b.buff.read 0 chunkSizeBytes, rfl, ?_⟩
      rw [Mem.getElem?_read hmod, Nat.zero_add, h.buff a v ha hcur]
    · rw [if_neg]
      · exact h.stored a v ha hcur
      · intro heq
        apply hcur
        rw [← heq, toNat_ofNat_of_lt hlt]
  · intro id c hc
    rw [hview] at hc
    split at hc
    · rw [Option.some.injEq] at hc
      rw [← hc, Mem.length_read]
    · exact h.whole id c hc

/-- A chunk that the store holds is reloaded. -/
theorem Content.reload {bytes : Nat → Option UInt8} {s : σ} {n : Nat}
    {x : Bytes}
    (hbound : ∀ a v, bytes a = some v → a / chunkSizeBytes < 2 ^ 32)
    (hall : ∀ a v, bytes a = some v →
      ∃ chunk, view s (UInt32.ofNat (a / chunkSizeBytes)) = some chunk
        ∧ chunk[a % chunkSizeBytes]? = some v)
    (hwhole : ∀ id c, view s id = some c → c.length = chunkSizeBytes)
    (hx : view s (UInt32.ofNat (n / chunkSizeBytes)) = some x) :
    Content view { b with
      store := s
      chunkNum := UInt32.ofNat (n / chunkSizeBytes)
      buff := b.buff.write 0 x
      pos := n } bytes := by
  refine ⟨hbound, fun a v ha hcur => ?_, fun a v ha _ => hall a v ha, hwhole⟩
  obtain ⟨c, hc, hv⟩ := hall a v ha
  have hid : UInt32.ofNat (a / chunkSizeBytes)
      = UInt32.ofNat (n / chunkSizeBytes) := by
    rw [hcur, UInt32.ofNat_toNat]
  rw [hid, hx, Option.some.injEq] at hc
  rw [← hc] at hv
  obtain ⟨hlt, hval⟩ := List.getElem?_eq_some_iff.1 hv
  show b.buff.write 0 x (a % chunkSizeBytes) = v
  rw [Mem.write_inside b.buff (Nat.zero_le _) (by simpa using hlt)]
  exact hval

/-- Nothing has been written to a chunk that the store does not hold. -/
theorem Content.fresh {bytes : Nat → Option UInt8} {s : σ} {n : Nat}
    (hbound : ∀ a v, bytes a = some v → a / chunkSizeBytes < 2 ^ 32)
    (hall : ∀ a v, bytes a = some v →
      ∃ chunk, view s (UInt32.ofNat (a / chunkSizeBytes)) = some chunk
        ∧ chunk[a % chunkSizeBytes]? = some v)
    (hwhole : ∀ id c, view s id = some c → c.length = chunkSizeBytes)
    (hnone : view s (UInt32.ofNat (n / chunkSizeBytes)) = none) :
    Content view { b with
      store := s
      chunkNum := UInt32.ofNat (n / chunkSizeBytes)
      pos := n } bytes := by
  refine ⟨hbound, fun a v ha hcur => ?_, fun a v ha _ => hall a v ha, hwhole⟩
  obtain ⟨c, hc, -⟩ := hall a v ha
  have hid : UInt32.ofNat (a / chunkSizeBytes)
      = UInt32.ofNat (n / chunkSizeBytes) := by
    rw [hcur, UInt32.ofNat_toNat]
  rw [hid, hnone] at hc
  cases hc

/-- A `move_pos` that answers OK keeps the content and moves to the chunk
of the new position. -/
theorem movePos_keeps
    (hf : ops.Truthful ready view fun id => id.toNat ≤ top / chunkSizeBytes)
    {bytes : Nat → Option UInt8} (hready : ready b.store)
    (hcontent : Content view b bytes)
    (hroom : b.chunkNum.toNat ≤ top / chunkSizeBytes) {n : Nat}
    {b' : ChunkBuilder σ} (hmove : movePos ops b n = some (.ok, b')) :
    ready b'.store ∧ Content view b' bytes ∧ b'.pos = n
      ∧ b'.chunkNum = UInt32.ofNat (n / chunkSizeBytes)
      ∧ b'.built = b.built := by
  unfold movePos at hmove
  split at hmove
  · split at hmove
    · cases hmove
    next err s' hwrite =>
    split at hmove
    · next herr =>
      cases hmove
      exact absurd rfl herr
    next herr =>
    rw [not_not.1 herr] at hwrite
    obtain ⟨hready', hview⟩ := hf.write _ _ _ _ hready hroom
      (Mem.length_read _ _ _) hwrite
    obtain ⟨hall, hwhole⟩ := hcontent.flushed hview
    simp only at hmove
    split at hmove
    · next havail =>
      obtain ⟨c, hc⟩ := Option.isSome_iff_exists.1
        ((hf.available s' _ hready').1 havail)
      split at hmove
      · cases hmove
      · next err s'' hread =>
        cases hmove
        exact absurd rfl (hf.error _ _ _ _ _ hready' hc hread)
      · next x s'' hread =>
        obtain ⟨rfl, hready'', hview''⟩ :=
          hf.read _ _ _ _ _ hready' hc hread
        cases hmove
        rw [← hview''] at hall hwhole hc
        exact ⟨hready'', .reload hcontent.bound hall hwhole hc, rfl, rfl, rfl⟩
    · next havail =>
      cases hmove
      have hnone := Option.not_isSome_iff_eq_none.1
        (mt (hf.available s' _ hready').2 havail)
      exact ⟨hready', .fresh hcontent.bound hall hwhole hnone, rfl, rfl, rfl⟩
  · next hsame =>
    cases hmove
    refine ⟨hready, ⟨hcontent.bound, hcontent.buff, hcontent.stored,
      hcontent.whole⟩, rfl, ?_, rfl⟩
    rw [not_not.1 hsame, UInt32.ofNat_toNat]

/-- Over a store that keeps its chunks `move_pos` answers OK. -/
theorem movePos_spec
    (hf : ops.Faithful ready view fun id => id.toNat ≤ top / chunkSizeBytes)
    {bytes : Nat → Option UInt8} (hready : ready b.store)
    (hcontent : Content view b bytes)
    (hroom : b.chunkNum.toNat ≤ top / chunkSizeBytes) (n : Nat) :
    ∃ b', movePos ops b n = some (.ok, b') ∧ ready b'.store
      ∧ Content view b' bytes ∧ b'.pos = n
      ∧ b'.chunkNum = UInt32.ofNat (n / chunkSizeBytes)
      ∧ b'.built = b.built := by
  have hok : ∃ b', movePos ops b n = some (.ok, b') := by
    unfold movePos
    split
    · obtain ⟨s', hwrite, hready', -⟩ := hf.write b.store b.chunkNum
        (b.buff.read 0 chunkSizeBytes) hready hroom (Mem.length_read _ _ _)
      simp only [hwrite]
      rw [if_neg (by simp)]
      split
      · next havail =>
        obtain ⟨x, hx⟩ := Option.isSome_iff_exists.1
          ((hf.available s' _ hready').1 havail)
        obtain ⟨s'', hread, -⟩ := hf.read s' _ x hready' hx
        simp only [hread]
        exact ⟨_, rfl⟩
      · exact ⟨_, rfl⟩
    · exact ⟨_, rfl⟩
  obtain ⟨b', hmove⟩ := hok
  exact ⟨b', hmove, movePos_keeps hf.truthful hready hcontent hroom hmove⟩

/-- Bytes copied into the chunk in memory are written. -/
theorem Content.put (h : Content view b f.bytes) {bs : Bytes}
    (hlt : f.cursor / chunkSizeBytes < 2 ^ 32)
    (hcur : f.cursor / chunkSizeBytes = b.chunkNum.toNat)
    (hfit : f.cursor % chunkSizeBytes + bs.length ≤ chunkSizeBytes)
    (pos : Nat) :
    Content view { b with
        buff := b.buff.write (f.cursor % chunkSizeBytes) bs, pos := pos }
      (f.put bs).bytes := by
  have hdiv := Nat.div_add_mod f.cursor chunkSizeBytes
  -- an address inside the copy lies in the chunk in memory
  have hinside : ∀ a, f.cursor ≤ a → a < f.cursor + bs.length →
      a / chunkSizeBytes = f.cursor / chunkSizeBytes
        ∧ a % chunkSizeBytes
          = f.cursor % chunkSizeBytes + (a - f.cursor) := by
    intro a hlo hhi
    have ha : a = f.cursor % chunkSizeBytes + (a - f.cursor)
        + chunkSizeBytes * (f.cursor / chunkSizeBytes) := by omega
    have hsmall : f.cursor % chunkSizeBytes + (a - f.cursor)
        < chunkSizeBytes := by omega
    constructor
    · rw [ha, Nat.add_mul_div_left _ _ chunkSizeBytes_pos,
        Nat.div_eq_of_lt hsmall, Nat.zero_add]
    · conv_lhs => rw [ha]
      rw [Nat.add_mul_mod_self_left, Nat.mod_eq_of_lt hsmall]
  refine ⟨?_, ?_, ?_, h.whole⟩
  · intro a v ha
    by_cases hin : f.cursor ≤ a ∧ a < f.cursor + bs.length
    · rw [(hinside a hin.1 hin.2).1]
      exact hlt
    · rw [FlatFile.bytes_put_outside (by omega)] at ha
      exact h.bound a v ha
  · intro a v ha hnum
    show b.buff.write _ bs (a % chunkSizeBytes) = v
    by_cases hin : f.cursor ≤ a ∧ a < f.cursor + bs.length
    · rw [FlatFile.bytes_put_inside hin.1 hin.2] at ha
      obtain ⟨hi, hval⟩ := List.getElem?_eq_some_iff.1 ha
      have hmod := (hinside a hin.1 hin.2).2
      rw [Mem.write_inside b.buff (by omega) (by omega), ← hval]
      congr 1
      omega
    · rw [FlatFile.bytes_put_outside (by omega)] at ha
      rw [Mem.write_outside, h.buff a v ha hnum]
      -- in the same chunk, outside the copy
      have hnum' : a / chunkSizeBytes = f.cursor / chunkSizeBytes :=
        hnum.trans hcur.symm
      have hdiva := Nat.div_add_mod a chunkSizeBytes
      rw [hnum'] at hdiva
      omega
  · intro a v ha hnum
    by_cases hin : f.cursor ≤ a ∧ a < f.cursor + bs.length
    · exact absurd ((hinside a hin.1 hin.2).1.trans hcur) hnum
    · rw [FlatFile.bytes_put_outside (by omega)] at ha
      exact h.stored a v ha hnum

-- ======================================================= the calls

variable
  (hf : ops.Faithful ready view fun id => id.toNat ≤ top / chunkSizeBytes)
  (htop : top ≤ 2 ^ 32 * chunkSizeBytes)

include hf in
/-- `move_pos` moves the cursor. -/
theorem Refines.seek (h : Refines ready view top b f) {a : Nat}
    (ha : a ≤ top) :
    ∃ b', movePos ops b a = some (.ok, b')
      ∧ Refines ready view top b' (f.seek a) := by
  have hroom : b.chunkNum.toNat ≤ top / chunkSizeBytes := by
    rw [h.num]
    exact room_of_le h.cursor
  obtain ⟨b', hmove, hready, hcontent, hpos, hnum, -⟩ :=
    movePos_spec hf h.ready h.content hroom a
  exact ⟨b', hmove, hready, hcontent, hpos, hnum, ha⟩

include htop in
/-- One turn of the loop of `write_data` before it moves: bytes are copied
into what is left of the chunk. -/
theorem Refines.copied (h : Refines ready view top b f) {bs : Bytes}
    (hbs : bs ≠ [])
    (hfit : f.cursor % chunkSizeBytes + bs.length ≤ chunkSizeBytes)
    (hle : f.cursor + bs.length ≤ top) :
    Content view { b with
        buff := b.buff.write (f.cursor % chunkSizeBytes) bs
        pos := f.cursor + bs.length } (f.put bs).bytes
      ∧ b.chunkNum.toNat ≤ top / chunkSizeBytes := by
  have hpos := List.length_pos_iff.2 hbs
  have hlt : f.cursor / chunkSizeBytes < 2 ^ 32 := by
    rw [Nat.div_lt_iff_lt_mul chunkSizeBytes_pos]
    omega
  have hcur : f.cursor / chunkSizeBytes = b.chunkNum.toNat := by
    rw [h.num, toNat_ofNat_of_lt hlt]
  have hroom : b.chunkNum.toNat ≤ top / chunkSizeBytes := by
    rw [h.num]
    exact room_of_le h.cursor
  exact ⟨h.content.put hlt hcur hfit (f.cursor + bs.length), hroom⟩

include hf htop in
/-- One turn of the loop of `write_data`: copy bytes into what is left
of the chunk, and move behind them. -/
theorem Refines.putPart (h : Refines ready view top b f) {bs : Bytes}
    (hbs : bs ≠ [])
    (hfit : f.cursor % chunkSizeBytes + bs.length ≤ chunkSizeBytes)
    (hle : f.cursor + bs.length ≤ top) :
    ∃ b', movePos ops { b with
          buff := b.buff.write (f.cursor % chunkSizeBytes) bs
          pos := f.cursor + bs.length } (f.cursor + bs.length)
        = some (.ok, b')
      ∧ Refines ready view top b' (f.put bs) := by
  obtain ⟨hcontent, hroom⟩ := h.copied htop hbs hfit hle
  obtain ⟨b', hmove, hready, hcontent', hpos', hnum, -⟩ :=
    movePos_spec hf (b := { b with
      buff := b.buff.write (f.cursor % chunkSizeBytes) bs
      pos := f.cursor + bs.length }) h.ready hcontent hroom
      (f.cursor + bs.length)
  exact ⟨b', hmove, hready, hcontent', hpos', hnum, hle⟩

include hf htop in
/-- `write_data` writes at the cursor. -/
theorem Refines.writeData (data : Bytes) :
    ∀ (b : ChunkBuilder σ) (f : FlatFile), Refines ready view top b f →
      f.cursor + data.length ≤ top →
      ∃ b', writeData ops b data = some (.ok, b')
        ∧ Refines ready view top b' (f.put data) := by
  induction hlen : data.length using Nat.strong_induction_on
    generalizing data with
  | _ n ih =>
      intro b f h hle
      rw [ChunkBuilder.writeData]
      rcases Nat.eq_zero_or_pos n with rfl | hpos
      · rw [dif_neg (by omega)]
        rw [List.length_eq_zero_iff.1 hlen, FlatFile.put_nil]
        exact ⟨b, rfl, h⟩
      · rw [dif_pos (by omega)]
        have hchunk := chunkSizeBytes_eq
        have hmod := Nat.mod_lt f.cursor chunkSizeBytes_pos
        -- what fits into the chunk
        generalize hk : min (chunkSizeBytes - f.cursor % chunkSizeBytes)
          data.length = k
        have hk' : (data.take k).length = k := by
          rw [List.length_take]
          omega
        have hne : data.take k ≠ [] := List.ne_nil_of_length_pos (by omega)
        obtain ⟨b', hmove, hrefines⟩ :=
          h.putPart hf htop hne (by omega) (by omega)
        rw [hk'] at hmove
        obtain ⟨b'', hrest, hrefines'⟩ := ih (data.drop k).length
          (by rw [List.length_drop]; omega) (data.drop k) rfl b' _ hrefines
          (by rw [FlatFile.cursor_put, hk', List.length_drop]; omega)
        rw [← FlatFile.put_append, List.take_append_drop] at hrefines'
        refine ⟨b'', ?_, hrefines'⟩
        simp only [h.pos, hk]
        rw [usize_of_lt (by omega)]
        simp only [hmove]
        exact hrest

include htop in
/-- A `write_data` that answers OK has written at the cursor. -/
theorem Refines.writeData_keeps
    (hf : ops.Truthful ready view fun id => id.toNat ≤ top / chunkSizeBytes)
    (data : Bytes) :
    ∀ (b b' : ChunkBuilder σ) (f : FlatFile), Refines ready view top b f →
      f.cursor + data.length ≤ top →
      ChunkBuilder.writeData ops b data = some (.ok, b') →
      Refines ready view top b' (f.put data) := by
  induction hlen : data.length using Nat.strong_induction_on
    generalizing data with
  | _ n ih =>
      intro b b' f h hle hwrite
      rw [ChunkBuilder.writeData] at hwrite
      rcases Nat.eq_zero_or_pos n with rfl | hpos
      · rw [dif_neg (by omega)] at hwrite
        cases hwrite
        rw [List.length_eq_zero_iff.1 hlen, FlatFile.put_nil]
        exact h
      · rw [dif_pos (by omega)] at hwrite
        have hchunk := chunkSizeBytes_eq
        have hmod := Nat.mod_lt f.cursor chunkSizeBytes_pos
        simp only [h.pos] at hwrite
        generalize hk : min (chunkSizeBytes - f.cursor % chunkSizeBytes)
          data.length = k at hwrite
        have hk' : (data.take k).length = k := by
          rw [List.length_take]
          omega
        have hne : data.take k ≠ [] := List.ne_nil_of_length_pos (by omega)
        obtain ⟨hcontent, hroom⟩ := h.copied htop hne (by omega) (by omega)
        rw [hk'] at hcontent
        rw [usize_of_lt (by omega)] at hwrite
        split at hwrite
        · cases hwrite
        · next err b'' hmove =>
          split at hwrite
          · next herr => cases hwrite; exact absurd rfl herr
          · next herr =>
            rw [not_not.1 herr] at hmove
            obtain ⟨hready, hcontent', hpos', hnum, -⟩ :=
              movePos_keeps hf (b := { b with
                buff := b.buff.write (f.cursor % chunkSizeBytes)
                  (data.take k)
                pos := f.cursor + k }) h.ready hcontent hroom hmove
            have hput : Refines ready view top b'' (f.put (data.take k)) := by
              refine ⟨hready, hcontent', ?_, ?_, ?_⟩
              all_goals rw [FlatFile.cursor_put, hk']
              · exact hpos'
              · exact hnum
              · omega
            have hrest := ih (data.drop k).length
              (by rw [List.length_drop]; omega) (data.drop k) rfl b'' b' _
              hput (by rw [FlatFile.cursor_put, hk', List.length_drop]; omega)
              hwrite
            rwa [← FlatFile.put_append, List.take_append_drop] at hrest

include hf htop in
/-- The loop of `add_file` writes what it reads, at the cursor. A read
that fails ends it with an error, or, with nothing read in its round,
has no defined meaning. -/
theorem Refines.fileLoop (fd : Fd) :
    ∀ (b : ChunkBuilder σ) (f : FlatFile) (length : Nat),
      Refines ready view top b f → f.cursor + fd.rest.length ≤ top →
      length + fd.rest.length < 2 ^ 64 →
      (fileLoop ops b fd length = none ∧ ¬ ∀ c ∈ fd.script, c.Progress)
        ∨ ∃ err length' b' bs,
          fileLoop ops b fd length = some (err, length', b')
            ∧ Refines ready view top b' (f.put bs)
            ∧ bs.length ≤ fd.rest.length
            ∧ (∀ content, readAll chunkSizeBytes fd = some content →
              bs = content ∧ err = .ok
                ∧ length' = length + content.length)
            ∧ (readAll chunkSizeBytes fd = none → err = .accessDenied) := by
  induction hlen : fd.rest.length using Nat.strong_induction_on
    generalizing fd with
  | _ n ih =>
      intro b f length h hle hsize
      obtain ⟨hrest, hgot⟩ := readLoop_rest fd chunkSizeBytes
      have hprogress := readLoop_of_progress chunkSizeBytes fd
      rw [ChunkBuilder.fileLoop, readAll]
      generalize readLoop fd chunkSizeBytes = r at hrest hgot hprogress
      by_cases hfailed : r.failed = true
      · rw [dif_pos hfailed, dif_pos hfailed]
        by_cases hnil : r.got = []
        · refine .inl ⟨if_pos hnil, fun hscript => ?_⟩
          have := (hprogress hscript chunkSizeBytes_pos).1
          rw [hfailed] at this
          cases this
        · have hlast : r.got.dropLast.length ≤ r.got.length := by
            rw [List.length_dropLast]
            omega
          obtain ⟨b', hwrite, hrefines⟩ := Refines.writeData hf htop
            r.got.dropLast b f h (by omega)
          refine .inr ⟨.accessDenied,
            usize (length + r.got.length + (2 ^ 64 - 1)), b', r.got.dropLast,
            ?_, hrefines, by omega, fun content hc => (by cases hc),
            fun _ => rfl⟩
          rw [if_neg hnil, hwrite]
          exact if_neg (by simp)
      · rw [dif_neg hfailed, dif_neg hfailed]
        obtain ⟨b', hwrite, hrefines⟩ := Refines.writeData hf htop r.got b f
          h (by omega)
        simp only [hwrite]
        rw [if_neg (by simp)]
        by_cases hatEnd : r.atEnd = true
        · rw [dif_pos hatEnd, dif_pos hatEnd, usize_of_lt (by omega)]
          refine .inr ⟨_, _, b', r.got, rfl, hrefines, by omega,
            fun content hc => ?_, fun hc => (by cases hc)⟩
          rw [Option.some.injEq] at hc
          exact ⟨hc, rfl, by rw [hc]⟩
        · have hmore := hgot (by simpa using hfailed) (by simpa using hatEnd)
          rw [dif_neg hatEnd, dif_neg hatEnd, usize_of_lt (by omega)]
          rcases ih r.fd.rest.length (by omega) r.fd rfl b' _
            (length + r.got.length) hrefines
            (by rw [FlatFile.cursor_put]; omega) (by omega)
            with ⟨hnone, hscript⟩
              | ⟨err, length', b'', bs, hloop, hrefines', hbs, hok, hfail⟩
          · refine .inl ⟨hnone, fun hall => hscript ?_⟩
            exact (hprogress hall chunkSizeBytes_pos).2.2.2.1
          · rw [← FlatFile.put_append] at hrefines'
            refine .inr ⟨err, length', b'', r.got ++ bs, hloop, hrefines',
              by rw [List.length_append]; omega, fun content hc => ?_,
              fun hc => ?_⟩
            · obtain ⟨rest, hrestc, hcontent⟩ := Option.map_eq_some_iff.1 hc
              obtain ⟨hbseq, herr, hlength⟩ := hok rest hrestc
              rw [← hcontent, hbseq]
              exact ⟨rfl, herr, by rw [hlength, List.length_append]; omega⟩
            · exact hfail (Option.map_eq_none_iff.1 hc)

/-- What `add_file` makes of a source: the bytes it delivers, none if it
cannot be opened or a read fails. -/
def delivered : SourceFile → Option Bytes
  | .notFound => none
  | .denied => none
  | .opened fd => readAll chunkSizeBytes fd

/-- No read of the source fails, and none is cut short. -/
def Sound : SourceFile → Prop
  | .notFound => True
  | .denied => True
  | .opened fd => ∀ c ∈ fd.script, c.Progress

/-- The most bytes a source has. -/
def sourceLen : SourceFile → Nat
  | .notFound => 0
  | .denied => 0
  | .opened fd => fd.rest.length

include hf htop in
/-- `add_file` writes what the source delivers, and says where; if the
source does not, it says that it was not found or not readable. -/
theorem Refines.addFile (h : Refines ready view top b f) (source : SourceFile)
    (hle : f.cursor + sourceLen source ≤ top) (hsize : top < 2 ^ 64) :
    (addFile ops b source = none ∧ ¬ Sound source)
      ∨ ∃ reply b' bs, addFile ops b source = some (reply, b')
        ∧ Refines ready view top b' (f.put bs)
        ∧ bs.length ≤ sourceLen source
        ∧ (∀ content, delivered source = some content → bs = content
          ∧ reply = { err := .ok, offset := f.cursor
                      length := content.length })
        ∧ (delivered source = none →
          reply.err = .notFound ∨ reply.err = .accessDenied) := by
  cases source with
  | notFound =>
      refine .inr ⟨_, b, [], rfl, ?_, Nat.le_refl _, fun c hc => (by cases hc),
        fun _ => .inl rfl⟩
      rw [FlatFile.put_nil]
      exact h
  | denied =>
      refine .inr ⟨_, b, [], rfl, ?_, Nat.le_refl _, fun c hc => (by cases hc),
        fun _ => .inr rfl⟩
      rw [FlatFile.put_nil]
      exact h
  | opened fd =>
      have hle' : f.cursor + fd.rest.length ≤ top := hle
      unfold ChunkBuilder.addFile
      simp only
      rcases Refines.fileLoop hf htop fd b f 0 h hle' (by omega)
        with ⟨hnone, hscript⟩
          | ⟨err, length, b', bs, hloop, hrefines, hbs, hok, hfail⟩
      · rw [hnone]
        exact .inl ⟨rfl, hscript⟩
      · rw [hloop]
        refine .inr ⟨_, b', bs, rfl, hrefines, hbs, fun content hc => ?_,
          fun hc => .inr (hfail hc)⟩
        obtain ⟨hbseq, herr, hlength⟩ := hok content hc
        rw [herr, hlength, if_pos rfl, h.pos, Nat.zero_add]
        exact ⟨hbseq, rfl⟩

include hf htop in
/-- Every call does to the builder what it means for the flat file, and
hands back what the flat file says. -/
theorem Refines.serve (h : Refines ready view top b f) {r : Request}
    (hr : Admissible top f r) (hsize : top < 2 ^ 64) :
    ∃ b', serve ops b r = some (flatReply f r, b')
      ∧ Refines ready view top b' (flat f r) := by
  cases r with
  | addFile source =>
      cases source with
      | notFound | denied => exact ⟨b, rfl, h⟩
      | opened fd =>
          obtain ⟨hle, hscript⟩ := hr
          have hall : delivered (.opened fd) = some fd.rest :=
            readAll_of_progress chunkSizeBytes_pos fd hscript
          rcases h.addFile hf htop (.opened fd) hle hsize
            with ⟨-, hsound⟩ | ⟨reply, b', bs, hadd, hrefines, -, hok, -⟩
          · exact absurd hscript hsound
          · obtain ⟨rfl, rfl⟩ := hok fd.rest hall
            exact ⟨b', hadd, hrefines⟩
  | reserve length =>
      have hle : f.cursor + length ≤ top := hr
      obtain ⟨b', hmove, hrefines⟩ := h.seek hf hle
      refine ⟨b', ?_, hrefines⟩
      show reserve ops b length = _
      rw [reserve, h.pos, usize_of_lt (by omega)]
      simp only [hmove]
      rfl
  | write offset data =>
      have hle : offset + data.length ≤ top := hr
      obtain ⟨b', hmove, hrefines⟩ :=
        h.seek hf (Nat.le_trans (Nat.le_add_right _ _) hle)
      obtain ⟨b'', hwrite, hrefines'⟩ :=
        Refines.writeData hf htop data b' _ hrefines hle
      refine ⟨b'', ?_, hrefines'⟩
      show write ops b offset data = _
      rw [write]
      simp only [hmove, hwrite]
      rfl

include hf htop in
/-- So does every sequence of calls. -/
theorem Refines.serveAll (rs : List Request) :
    ∀ (b : ChunkBuilder σ) (f : FlatFile), Refines ready view top b f →
      AllAdmissible top f rs →
      ∃ b', serveAll ops b rs = some (flatReplies f rs, b')
        ∧ Refines ready view top b' (flatAll f rs) := by
  have hsize : top < 2 ^ 64 := by
    have := chunkSizeBytes_eq
    omega
  induction rs with
  | nil => exact fun b f h _ => ⟨b, rfl, h⟩
  | cons r rs ih =>
      intro b f h hrs
      obtain ⟨b', hserve, hrefines⟩ := h.serve hf htop hrs.1 hsize
      obtain ⟨b'', hrest, hrefines'⟩ := ih b' _ hrefines hrs.2
      refine ⟨b'', ?_, hrefines'⟩
      simp only [ChunkBuilder.serveAll, hserve, hrest]
      rfl

include hf in
/-- After `build` the store holds every byte written. -/
theorem Refines.build (h : Refines ready view top b f) :
    ∃ b', build ops b = some (.ok, b') ∧ ready b'.store
      ∧ (∀ a v, f.bytes a = some v →
        ∃ chunk, view b'.store (UInt32.ofNat (a / chunkSizeBytes)) = some chunk
          ∧ chunk[a % chunkSizeBytes]? = some v)
      ∧ ∀ id c, view b'.store id = some c → c.length = chunkSizeBytes := by
  have hroom : b.chunkNum.toNat ≤ top / chunkSizeBytes := by
    rw [h.num]
    exact room_of_le h.cursor
  obtain ⟨s', hwrite, hready, hview⟩ := hf.write b.store b.chunkNum
    (b.buff.read 0 chunkSizeBytes) h.ready hroom (Mem.length_read _ _ _)
  obtain ⟨hall, hwhole⟩ := h.content.flushed hview
  refine ⟨{ b with store := s', built := b.built || true }, ?_, hready, hall,
    hwhole⟩
  rw [ChunkBuilder.build, hwrite]
  rfl

/-- A fresh builder over a store of whole chunks stands for the empty
file: nothing is said yet of what it will find there. -/
theorem refines_new_of_whole {s : σ} (hready : ready s)
    (hwhole : ∀ id c, view s id = some c → c.length = chunkSizeBytes)
    (buff : Mem) : Refines ready view top (new s buff) .empty := by
  refine ⟨hready, ⟨?_, ?_, ?_, hwhole⟩, rfl, rfl, Nat.zero_le _⟩
  · exact fun a v ha => by cases ha
  · exact fun a v ha => by cases ha
  · exact fun a v ha => by cases ha

/-- So does one over an empty store. -/
theorem refines_new {s : σ} (hready : ready s)
    (hempty : ∀ id, view s id = none) (buff : Mem) :
    Refines ready view top (new s buff) .empty := by
  refine refines_new_of_whole hready (fun id c hc => ?_) buff
  rw [hempty id] at hc
  cases hc

theorem allAdmissible_append {rs qs : List Request} :
    ∀ f : FlatFile, AllAdmissible top f (rs ++ qs) →
      AllAdmissible top f rs := by
  induction rs with
  | nil => exact fun _ _ => trivial
  | cons r rs ih => exact fun f h => ⟨h.1, ih _ h.2⟩

end Steps

/-- `ChunkBuilder` is a flat byte file with a cursor. On a fresh builder
over an empty faithful store with room for the chunks up to address
`top`, every sequence of calls that stays below succeeds and hands back
what the flat file says (the cursor at the call as the offset). After
every call the chunk in memory is the one of the cursor, and the buffer
holds what has been written to it; after `build` the stored chunks hold
at every address the last byte written there. -/
theorem builder_refines_flatFile {σ : Type} (ops : ChunkOps σ)
    (ready : σ → Prop) (view : σ → UInt32 → Option Bytes) (top : Nat)
    (htop : top ≤ 2 ^ 32 * chunkSizeBytes)
    (hf : ops.Faithful ready view fun id => id.toNat ≤ top / chunkSizeBytes)
    (s : σ) (hready : ready s) (hempty : ∀ id, view s id = none) (buff : Mem)
    (rs : List Request) (hrs : AllAdmissible top .empty rs) :
    (∀ pre post, rs = pre ++ post →
      ∃ b, serveAll ops (new s buff) pre
          = some (flatReplies .empty pre, b)
        ∧ b.pos = (flatAll .empty pre).cursor
        ∧ (b.pos < 2 ^ 32 * chunkSizeBytes →
          b.chunkNum.toNat = b.pos / chunkSizeBytes)
        ∧ ∀ a v, (flatAll .empty pre).bytes a = some v →
          a / chunkSizeBytes = b.chunkNum.toNat →
          b.buff (a % chunkSizeBytes) = v)
    ∧ ∃ b b', serveAll ops (new s buff) rs
          = some (flatReplies .empty rs, b)
        ∧ build ops b = some (.ok, b')
        ∧ ∀ a v, (flatAll .empty rs).bytes a = some v →
          ∃ chunk s', ops.readChunk b'.store
              (UInt32.ofNat (a / chunkSizeBytes)) = some (.ok chunk, s')
            ∧ chunk[a % chunkSizeBytes]? = some v := by
  have hnew := @refines_new σ ready view top s hready hempty buff
  constructor
  · intro pre post hsplit
    rw [hsplit] at hrs
    obtain ⟨b, hserve, hrefines⟩ := Refines.serveAll hf htop pre _ _ hnew
      (allAdmissible_append _ hrs)
    refine ⟨b, hserve, hrefines.pos, fun hlt => ?_, hrefines.content.buff⟩
    rw [hrefines.num, ← hrefines.pos, toNat_ofNat_of_lt]
    rwa [Nat.div_lt_iff_lt_mul chunkSizeBytes_pos]
  · obtain ⟨b, hserve, hrefines⟩ :=
      Refines.serveAll hf htop rs _ _ hnew hrs
    obtain ⟨b', hbuild, hready', hall, -⟩ := hrefines.build hf
    refine ⟨b, b', hserve, hbuild, fun a v ha => ?_⟩
    obtain ⟨c, hc, hv⟩ := hall a v ha
    obtain ⟨s', hread, -⟩ := hf.read _ _ c hready' hc
    exact ⟨c, s', hread, hv⟩

/-- All but the last byte of a chunk reserved, a file of two bytes, of
which the second is in the next chunk, and two bytes written back. -/
def threeCalls : List Request :=
  [.reserve (chunkSizeBytes - 1),
    .addFile (.opened { rest := [7, 8], script := [.upTo 1] }),
    .write 0 [1, 2]]

/-- The first chunk is stored, loaded again, and stored again. -/
theorem builder_three_calls :
    ∃ b b', serveAll MemoryStore.ops (new .empty fun _ => 255) threeCalls
        = some ([{ err := .ok, offset := 0, length := 0 },
            { err := .ok, offset := chunkSizeBytes - 1, length := 2 },
            { err := .ok, offset := 0, length := 0 }], b)
      ∧ build MemoryStore.ops b = some (.ok, b')
      ∧ ∀ a v, (flatAll .empty threeCalls).bytes a = some v →
        ∃ chunk s', MemoryStore.ops.readChunk b'.store
            (UInt32.ofNat (a / chunkSizeBytes)) = some (.ok chunk, s')
          ∧ chunk[a % chunkSizeBytes]? = some v :=
  (builder_refines_flatFile MemoryStore.ops MemoryStore.Ready
    MemoryStore.chunks (chunkSizeBytes + 1) (by decide)
    (MemoryStore.faithful _) .empty MemoryStore.ready_empty (fun _ => rfl)
    (fun _ => 255) threeCalls
    ⟨show 0 + (chunkSizeBytes - 1) ≤ chunkSizeBytes + 1 by decide,
      ⟨show 0 + (chunkSizeBytes - 1) + 2 ≤ chunkSizeBytes + 1 by decide,
        by decide⟩,
      show 0 + 2 ≤ chunkSizeBytes + 1 by decide, trivial⟩).2

end ChunkBuilder

end Distfs

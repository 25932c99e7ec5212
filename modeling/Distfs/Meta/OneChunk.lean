/-
Builds that stay in the first chunk.

As long as image and files end before the first chunk does, the builder
neither flushes nor reloads: it fills its buffer, and `build` writes that
out once. Behind the last address the chunk is what the buffer was
(`build_first`, `written_first`).
-/
import Distfs.Meta.BuildLockstep
import Distfs.Meta.Built
import Distfs.Meta.Turns

namespace Distfs

open SourceTree ChunkBuilder Transfer

namespace ChunkBuilder

variable {σ : Type} {s : σ} {buff : Mem} {top n : Nat}
  {b : ChunkBuilder σ}

/-- Nothing has been flushed, nothing written from `top` on, and there is
room for `n` more bytes before it. -/
structure InFirst (s : σ) (buff : Mem) (top n : Nat) (b : ChunkBuilder σ) :
    Prop where
  store : b.store = s
  num : b.chunkNum = 0
  room : b.pos + n ≤ top
  tail : ∀ a, top ≤ a → b.buff a = buff a

theorem inFirst_new (s : σ) (buff : Mem) (top : Nat) :
    InFirst s buff top top (new s buff) :=
  ⟨rfl, rfl, Nat.le_of_eq (Nat.zero_add top), fun _ _ => rfl⟩

theorem InFirst.mono (h : InFirst s buff top n b) {k : Nat} (hk : k ≤ n) :
    InFirst s buff top k b :=
  ⟨h.store, h.num, Nat.le_trans (Nat.add_le_add_left hk _) h.room, h.tail⟩

section Calls

variable (ops : ChunkOps σ) (htop : top < chunkSizeBytes)

include htop in
/-- `move_pos` flushes nothing. -/
theorem InFirst.movePos (h : InFirst s buff top n b) {a k : Nat}
    (ha : a + k ≤ top) :
    movePos ops b a = some (.ok, { b with pos := a })
      ∧ InFirst s buff top k { b with pos := a } := by
  have hdiv : a / chunkSizeBytes = 0 := Nat.div_eq_of_lt (by omega)
  refine ⟨?_, ⟨h.store, h.num, ha, h.tail⟩⟩
  unfold ChunkBuilder.movePos
  rw [hdiv, h.num]
  exact if_neg fun hne => hne rfl

include htop in
theorem InFirst.writeData (data : Bytes)
    (h : InFirst s buff top (data.length + n) b) :
    ∃ b', writeData ops b data = some (.ok, b')
      ∧ InFirst s buff top n b' := by
  have hroom := h.room
  have hchunk := chunkSizeBytes_eq
  rcases Nat.eq_zero_or_pos data.length with hzero | hpos
  · rw [ChunkBuilder.writeData, dif_neg (by omega)]
    exact ⟨b, rfl, h.mono (by omega)⟩
  · have hmod : b.pos % chunkSizeBytes = b.pos :=
      Nat.mod_eq_of_lt (by omega)
    have hnext : min (chunkSizeBytes - b.pos) data.length = data.length := by
      omega
    have hcopied : InFirst s buff top n { b with
        buff := b.buff.write b.pos data, pos := b.pos + data.length } := by
      refine ⟨h.store, h.num, by show b.pos + data.length + n ≤ top; omega,
        fun a ha => ?_⟩
      show b.buff.write b.pos data a = buff a
      rw [Mem.write_outside _ (by omega), h.tail a ha]
    obtain ⟨hmove, -⟩ := hcopied.movePos ops htop
      (show b.pos + data.length + n ≤ top by omega)
    rw [ChunkBuilder.writeData, dif_pos hpos]
    simp only [hmod, hnext, List.take_length, List.drop_length,
      usize_of_lt (show b.pos + data.length < 2 ^ 64 by omega), hmove]
    refine ⟨_, ?_, hcopied⟩
    rw [if_neg (by simp), ChunkBuilder.writeData,
      dif_neg (by rw [List.length_nil]; omega)]

include htop in
theorem InFirst.fileLoop (fd : Fd) :
    ∀ (b : ChunkBuilder σ) (length : Nat),
      InFirst s buff top (fd.rest.length + n) b →
      (∀ c ∈ fd.script, c.Progress) →
      ∃ length' b', fileLoop ops b fd length = some (.ok, length', b')
        ∧ InFirst s buff top n b' := by
  induction hlen : fd.rest.length using Nat.strong_induction_on
    generalizing fd with
  | _ k ih =>
      intro b length h hscript
      obtain ⟨hrest, hgot⟩ := readLoop_rest fd chunkSizeBytes
      obtain ⟨hfailed, -, -, hscript', -⟩ :=
        readLoop_of_progress chunkSizeBytes fd hscript chunkSizeBytes_pos
      have hfailed' : ¬ (readLoop fd chunkSizeBytes).failed = true := by
        rw [hfailed]
        simp
      rw [ChunkBuilder.fileLoop, dif_neg hfailed']
      obtain ⟨b', hwrite, hb'⟩ := InFirst.writeData ops htop
        (readLoop fd chunkSizeBytes).got
        (h.mono (k := (readLoop fd chunkSizeBytes).got.length
          + ((readLoop fd chunkSizeBytes).fd.rest.length + n)) (by omega))
      simp only [hwrite]
      rw [if_neg (by simp)]
      by_cases hatEnd : (readLoop fd chunkSizeBytes).atEnd = true
      · rw [dif_pos hatEnd]
        exact ⟨_, b', rfl, hb'.mono (Nat.le_add_left n _)⟩
      · rw [dif_neg hatEnd]
        have hmore := hgot hfailed (by simpa using hatEnd)
        exact ih _ (by omega) _ rfl b' _ hb' hscript'

include htop in
/-- `add_file` comes back for every source whose reads succeed. -/
theorem serves_first :
    MetaFSBuilder.Serves ops fun n b => InFirst s buff top n b := by
  intro n b source h hsound
  cases source with
  | notFound => exact ⟨_, b, rfl, h.mono (by omega), .inr (.inl rfl)⟩
  | denied => exact ⟨_, b, rfl, h.mono (by omega), .inr (.inr rfl)⟩
  | opened fd =>
      obtain ⟨length, b', hloop, hb'⟩ :=
        InFirst.fileLoop ops htop fd b 0 h hsound
      unfold ChunkBuilder.addFile
      simp only [hloop]
      exact ⟨_, b', rfl, hb', .inl rfl⟩

end Calls

end ChunkBuilder

namespace MetaFSBuilder

section Build

variable {σ : Type} {ops : ChunkOps σ} {openAt : Bytes → SourceFile}
  {heap : Nat → Mem} {root : Bytes} {t : SourceTree} {fuel : Nat}
  {m : MetaFSBuilder} {off : Nat} (s : σ) (buff : Mem)

/-- Where image and files end before the first chunk does, a build writes
that chunk, once. -/
theorem build_first (hfound : Found t) (hsup : t.supported = true)
    (hsound : ∀ path s, Named t path s → s.isReg = true →
      Sound (sourceAt openAt root path))
    (htop : totalLen t (sourceAt openAt root) < chunkSizeBytes)
    (hscan : scanDfs heap t (start heap) = some (m, off))
    (hfuel : t.extent ≤ fuel)
    (hwrite : ∀ c : Bytes, c.length = chunkSizeBytes →
      ∃ s', ops.writeChunk s 0 c = some (.ok, s')) :
    ∃ r chunk, build ops openAt fuel heap root t (new s buff) = some r
      ∧ ops.writeChunk s 0 chunk = some (.ok, r.chunks.store)
      ∧ chunk.length = chunkSizeBytes
      ∧ ∀ a, totalLen t (sourceAt openAt root) ≤ a → a < chunkSizeBytes →
        chunk[a]? = some (buff a) := by
  obtain ⟨hpos, hfits, hat⟩ := scanned hscan
  have hchunk := chunkSizeBytes_eq
  generalize hlen : totalLen t (sourceAt openAt root) = top at htop
  have htotal : m.currentPos + dataLen (sizeAt (sourceAt openAt root)) [] t
      = top := by
    rw [hpos, ← hlen, totalLen]
  -- the space for the image
  obtain ⟨hmove, hreserved⟩ := (inFirst_new s buff top).movePos ops
    htop (Nat.le_of_eq htotal)
  have hreserve : (new s buff).reserve ops m.currentPos
      = some ({ err := .ok, offset := 0, length := 0 },
        { new s buff with pos := m.currentPos }) := by
    rw [reserve, show (new s buff).pos + m.currentPos = m.currentPos
      from Nat.zero_add _, usize_of_lt (by omega)]
    simp only [hmove]
    rfl
  -- the files
  obtain ⟨vs, data, b₁, hvisits, hb₁, -⟩ :=
    visits_turns (serves_first ops htop) hfound hat
      (by omega : usizeSize + t.extent ≤ m.dataSize.1) hsound fuel _ _ _
      (walkInv_start hsup)
      (by rw [List.map_singleton, List.sum_singleton]; exact hreserved)
      (by simpa using hfuel)
  rw [List.map_singleton, Item.queued,
    show root ++ slashed [] = root from List.append_nil root] at hvisits
  have hqueued : queued ops openAt fuel heap root t (new s buff)
      = some { root := off, visited := vs, err := .ok, data := data
               size := m.currentPos, start := 0, chunks := b₁ } :=
    (queued_ok_iff.2 ⟨rfl, m, _, _, hscan, rfl, hreserve, rfl, rfl,
      hvisits⟩).1
  -- the image
  obtain ⟨hback, hb₂⟩ := hb₁.movePos ops htop
    (show 0 + ((data.read 0 m.currentPos).length + 0) ≤ top by
      rw [Mem.length_read]
      omega)
  obtain ⟨b₃, hdata, hb₃⟩ := hb₂.writeData ops htop
  have himage : b₁.write ops 0 (data.read 0 m.currentPos)
      = some ({ err := .ok, offset := 0, length := 0 }, b₃) := by
    rw [write]
    simp only [hback, hdata]
    rfl
  obtain ⟨s', hstore⟩ := hwrite (b₃.buff.read 0 chunkSizeBytes)
    (Mem.length_read _ _ _)
  have hflush : b₃.build ops = some (.ok, { b₃ with
      store := s', built := b₃.built || true }) := by
    rw [ChunkBuilder.build, hb₃.store, hb₃.num]
    simp only [hstore]
    rfl
  refine ⟨{ err := .ok, data := data, size := m.currentPos, chunks := { b₃ with
      store := s', built := b₃.built || true } }, _, ?_, hstore,
    Mem.length_read _ _ _, fun a hlo hhi => ?_⟩
  · rw [build_eq_queued, hqueued]
    simp only [himage, hflush]
    rfl
  · rw [Mem.getElem?_read hhi, Nat.zero_add, hb₃.tail a hlo]

/-- It is all that the build writes. -/
theorem written_first (hfound : Found t) (hsup : t.supported = true)
    (hsound : ∀ path s, Named t path s → s.isReg = true →
      Sound (sourceAt openAt root path))
    (htop : totalLen t (sourceAt openAt root) < chunkSizeBytes)
    (hscan : scanDfs heap t (start heap) = some (m, off))
    (hfuel : t.extent ≤ fuel)
    (hwrite : ∀ c : Bytes, c.length = chunkSizeBytes →
      ∃ s', ops.writeChunk s 0 c = some (.ok, s')) :
    ∃ r chunk, build ops openAt fuel heap root t (new s buff) = some r
      ∧ chunksWritten ops openAt fuel heap root t s buff = [chunk]
      ∧ chunk.length = chunkSizeBytes
      ∧ ∀ a, totalLen t (sourceAt openAt root) ≤ a → a < chunkSizeBytes →
        chunk[a]? = some (buff a) := by
  obtain ⟨r, -, hbuild, -⟩ :=
    build_first s buff hfound hsup hsound htop hscan hfuel hwrite
  obtain ⟨r', c, hnoting, hwritten, hc⟩ := @build_first _ ops.noting openAt
    heap root t fuel m off (s, []) buff hfound hsup hsound htop hscan hfuel
    fun c hc => by
      obtain ⟨s', hs'⟩ := hwrite c hc
      refine ⟨(s', [] ++ [c]), ?_⟩
      simp only [ChunkOps.noting, hs', Option.map_some]
  refine ⟨r, c, hbuild, ?_, hc⟩
  obtain ⟨⟨err, s'⟩, -, heq⟩ := Option.map_eq_some_iff.1 hwritten
  have hrecord : [] ++ [c] = r'.chunks.store.2 :=
    congrArg Prod.snd (Prod.mk.inj heq).2
  rw [chunksWritten, hnoting]
  exact hrecord.symm

end Build

end MetaFSBuilder

end Distfs

/-
A completed build stores the chunks up to the last address, all of them
and no others.

# No more

Nothing is written beyond the last address, so that a store which held
nothing beyond it does not afterwards (`Faithful.confined`).

# No fewer

Image and files lie back to back, so that every chunk before the one of
the last address has a byte that was written, and holds it in the end. The
chunk of the last address may have none. But the cursor stood there when
the image was written back, and to move away from a chunk is to store it
(`movePos_flushes`); and what is stored stays (`Faithful.keeping`).
-/
import Distfs.Meta.Built
import Distfs.Meta.Turns

namespace Distfs

open SourceTree ChunkBuilder Transfer

-- ========================================================== the contract

namespace ChunkOps

variable {σ : Type} {ops : ChunkOps σ} {ready : σ → Prop}
  {view : σ → UInt32 → Option Bytes} {room : UInt32 → Prop}

/-- A ready store that holds nothing outside the room. -/
def Within (ready : σ → Prop) (view : σ → UInt32 → Option Bytes)
    (room : UInt32 → Prop) (s : σ) : Prop :=
  ready s ∧ ∀ id, (view s id).isSome → room id

/-- All that is written is in the room. -/
theorem Faithful.confined (h : ops.Faithful ready view room) :
    ops.Faithful (Within ready view room) view room := by
  refine ⟨fun s id b hs hroom hb => ?_, fun s id b hs hb => ?_,
    fun s id hs => h.available s id hs.1⟩
  · obtain ⟨s', hwrite, hready, hview⟩ := h.write s id b hs.1 hroom hb
    refine ⟨s', hwrite, ⟨hready, fun i hi => ?_⟩, hview⟩
    rw [hview] at hi
    by_cases heq : i = id
    · rw [heq]
      exact hroom
    · rw [if_neg heq] at hi
      exact hs.2 i hi
  · obtain ⟨s', hread, hready, hview⟩ := h.read s id b hs.1 hb
    refine ⟨s', hread, ⟨hready, fun i hi => ?_⟩, hview⟩
    rw [hview] at hi
    exact hs.2 i hi

/-- What is stored stays. -/
theorem Faithful.keeping (h : ops.Faithful ready view room) (kept : UInt32) :
    ops.Faithful (fun s => ready s ∧ (view s kept).isSome) view room := by
  refine ⟨fun s id b hs hroom hb => ?_, fun s id b hs hb => ?_,
    fun s id hs => h.available s id hs.1⟩
  · obtain ⟨s', hwrite, hready, hview⟩ := h.write s id b hs.1 hroom hb
    refine ⟨s', hwrite, ⟨hready, ?_⟩, hview⟩
    rw [hview]
    split
    · rfl
    · exact hs.2
  · obtain ⟨s', hread, hready, hview⟩ := h.read s id b hs.1 hb
    refine ⟨s', hread, ⟨hready, ?_⟩, hview⟩
    rw [hview]
    exact hs.2

end ChunkOps

namespace ChunkBuilder

variable {σ : Type} {ops : ChunkOps σ} {ready : σ → Prop}
  {view : σ → UInt32 → Option Bytes} {top : Nat}
  {b b' : ChunkBuilder σ}

/-- To move away from a chunk is to store it. -/
theorem movePos_flushes
    (hf : ops.Faithful ready view fun id => id.toNat ≤ top / chunkSizeBytes)
    (hready : ready b.store) (hroom : b.chunkNum.toNat ≤ top / chunkSizeBytes)
    {n : Nat} (hmove : n / chunkSizeBytes ≠ b.chunkNum.toNat)
    (h : movePos ops b n = some (.ok, b')) :
    (view b'.store b.chunkNum).isSome := by
  obtain ⟨s', hwrite, hready', hview⟩ := hf.write b.store b.chunkNum
    (b.buff.read 0 chunkSizeBytes) hready hroom (Mem.length_read _ _ _)
  have hkept : (view s' b.chunkNum).isSome := by
    rw [hview, if_pos rfl]
    rfl
  rw [movePos, if_pos hmove] at h
  simp only [hwrite] at h
  rw [if_neg (by simp)] at h
  by_cases havail : UInt32.ofNat (n / chunkSizeBytes) ∈ ops.available s'
  · rw [if_pos havail] at h
    obtain ⟨x, hx⟩ := Option.isSome_iff_exists.1
      ((hf.available s' _ hready').1 havail)
    obtain ⟨s'', hread, -, hview''⟩ := hf.read s' _ x hready' hx
    simp only [hread, Option.some.injEq, Prod.mk.injEq, true_and] at h
    rw [← h]
    show (view s'' b.chunkNum).isSome
    rw [hview'']
    exact hkept
  · rw [if_neg havail, Option.some.injEq, Prod.mk.injEq] at h
    rw [← h.2]
    exact hkept

/-- A source whose reads succeed has all its bytes put. -/
theorem Refines.addFile_sound {f : FlatFile}
    (hf : ops.Faithful ready view fun id => id.toNat ≤ top / chunkSizeBytes)
    (htop : top ≤ 2 ^ 32 * chunkSizeBytes) (h : Refines ready view top b f)
    {source : SourceFile} (hsound : Sound source)
    (hle : f.cursor + sourceLen source ≤ top) :
    ∃ reply b' bs, ChunkBuilder.addFile ops b source = some (reply, b')
      ∧ Refines ready view top b' (f.put bs) ∧ bs.length = sourceLen source
      ∧ (reply.err = .ok ∨ reply.err = .notFound
        ∨ reply.err = .accessDenied) := by
  have hsize : top < 2 ^ 64 := by
    have := chunkSizeBytes_eq
    omega
  rcases h.addFile hf htop source hle hsize with ⟨-, hunsound⟩
    | ⟨reply, b', bs, hadd, hrefines, hlen, hok, hfail⟩
  · exact absurd hsound hunsound
  · refine ⟨reply, b', bs, hadd, hrefines, ?_, ?_⟩
    · cases source with
      | notFound | denied => exact Nat.le_zero.1 hlen
      | opened fd =>
          have hall : delivered (.opened fd) = some fd.rest :=
            readAll_of_progress chunkSizeBytes_pos fd hsound
          rw [(hok fd.rest hall).1]
          rfl
    · cases hdelivered : delivered source with
      | none => exact .inr (hfail hdelivered)
      | some content =>
          rw [(hok content hdelivered).2]
          exact .inl rfl

end ChunkBuilder

namespace MetaFSBuilder

variable {σ : Type} {ops : ChunkOps σ} {ready : σ → Prop}
  {view : σ → UInt32 → Option Bytes} {openAt : Bytes → SourceFile}
  {heap : Nat → Mem} {root : Bytes} {t : SourceTree} {top : Nat}

-- =============================================================== the files

/-- Everything from `lo` up to the cursor has been written, and what is
still to come ends at `top`. -/
def Filling (ready : σ → Prop) (view : σ → UInt32 → Option Bytes)
    (top lo n : Nat) (b : ChunkBuilder σ) : Prop :=
  ∃ f, Refines ready view top b f ∧ f.cursor + n = top ∧ lo ≤ f.cursor
    ∧ f.Filled lo f.cursor

/-- The files of the queue loop leave no gap. -/
theorem serves_filling
    (hf : ops.Faithful ready view fun id => id.toNat ≤ top / chunkSizeBytes)
    (htop : top ≤ 2 ^ 32 * chunkSizeBytes) (lo : Nat) :
    Serves ops (Filling ready view top lo) := by
  rintro n b source ⟨f, hrefines, hcursor, hlo, hfilled⟩ hsound
  obtain ⟨reply, b', bs, hadd, hrefines', hlen, herr⟩ :=
    hrefines.addFile_sound hf htop hsound (by omega)
  refine ⟨reply, b', hadd, ⟨_, hrefines', ?_, ?_, hfilled.put⟩, herr⟩
  · rw [FlatFile.cursor_put]
    omega
  · rw [FlatFile.cursor_put]
    omega

-- =============================================================== the image

/-- Writing the image back and storing the last chunk leaves every chunk up
to that of the last address in the store. -/
theorem stored_of_filled
    (hf : ops.Faithful ready view fun id => id.toNat ≤ top / chunkSizeBytes)
    (htop : top < 2 ^ 32 * chunkSizeBytes) {b : ChunkBuilder σ}
    {f : FlatFile} (h : Refines ready view top b f) {image : Bytes}
    (hend : f.cursor = top) (himage : image ≠ []) (hle : image.length ≤ top)
    (hfilled : f.Filled image.length top) :
    ∃ reply b₁ b₂, b.write ops 0 image = some (reply, b₁)
      ∧ b₁.build ops = some (.ok, b₂) ∧ ready b₂.store
      ∧ ∀ id : UInt32, id.toNat ≤ top / chunkSizeBytes →
        (view b₂.store id).isSome := by
  have hpos := List.length_pos_iff.2 himage
  have hlast : top / chunkSizeBytes < 2 ^ 32 := by
    rw [Nat.div_lt_iff_lt_mul chunkSizeBytes_pos]
    exact htop
  have hnum : b.chunkNum.toNat = top / chunkSizeBytes := by
    rw [h.num, hend, toNat_ofNat_of_lt hlast]
  obtain ⟨b', hmove, hrefines⟩ := h.seek hf (Nat.zero_le top)
  obtain ⟨b₁, hwrite, hrefines₁⟩ := Refines.writeData hf (Nat.le_of_lt htop)
    image b' _ hrefines (by rw [FlatFile.cursor_seek]; omega)
  obtain ⟨b₂, hbuild, hready, hstored, -⟩ := hrefines₁.build hf
  have hdone : b.write ops 0 image
      = some ({ err := .ok, offset := 0, length := 0 }, b₁) := by
    unfold ChunkBuilder.write
    simp only [hmove, hwrite]
    rfl
  refine ⟨_, b₁, b₂, hdone, hbuild, hready, fun id hid => ?_⟩
  -- a chunk with a byte that was written
  have hbyte : ∀ a, a / chunkSizeBytes = id.toNat → a < top →
      (view b₂.store id).isSome := by
    intro a ha hlt
    have hsome : (((f.seek 0).put image).bytes a).isSome := by
      apply FlatFile.isSome_bytes_put
      rw [FlatFile.cursor_seek, FlatFile.bytes_seek]
      by_cases hin : a < image.length
      · exact .inl ⟨Nat.zero_le a, by omega⟩
      · exact .inr (hfilled a (by omega) hlt)
    obtain ⟨v, hv⟩ := Option.isSome_iff_exists.1 hsome
    obtain ⟨c, hc, -⟩ := hstored a v hv
    rw [ha, UInt32.ofNat_toNat] at hc
    rw [hc]
    rfl
  have hfirst : id.toNat * chunkSizeBytes / chunkSizeBytes = id.toNat :=
    Nat.mul_div_cancel _ chunkSizeBytes_pos
  have hdiv := Nat.div_add_mod top chunkSizeBytes
  rcases Nat.lt_or_ge id.toNat (top / chunkSizeBytes) with hlt | hge
  · have hmul := Nat.mul_lt_mul_of_pos_right hlt chunkSizeBytes_pos
    apply hbyte _ hfirst
    rw [Nat.mul_comm chunkSizeBytes] at hdiv
    omega
  -- the chunk of the cursor
  have hid' : id = b.chunkNum :=
    UInt32.toNat_inj.1 (by omega)
  rcases Nat.eq_zero_or_pos (top / chunkSizeBytes) with hzero | hmoved
  · apply hbyte 0
    · rw [Nat.zero_div]
      omega
    · omega
  · have hkept := movePos_flushes hf h.ready (Nat.le_of_eq hnum)
      (by rw [Nat.zero_div]; omega) hmove
    rw [← hid'] at hkept
    have hrefines' : Refines (fun s => ready s ∧ (view s id).isSome) view top
        b' (f.seek 0) :=
      ⟨⟨hrefines.ready, hkept⟩, hrefines.content, hrefines.pos, hrefines.num,
        hrefines.cursor⟩
    obtain ⟨b₁', hwrite', hrefines₁'⟩ := Refines.writeData (hf.keeping id)
      (Nat.le_of_lt htop) image b' _ hrefines'
      (by rw [FlatFile.cursor_seek]; omega)
    obtain ⟨b₂', hbuild', hready', -⟩ := hrefines₁'.build (hf.keeping id)
    rw [hwrite, Option.some.injEq, Prod.mk.injEq] at hwrite'
    rw [← hwrite'.2, hbuild, Option.some.injEq, Prod.mk.injEq] at hbuild'
    rw [hbuild'.2]
    exact hready'.2

-- =============================================================== the build

/-- How many chunks a build takes. -/
def chunkCount (t : SourceTree) (source : List Bytes → SourceFile) : Nat :=
  totalLen t source / chunkSizeBytes + 1

/-- When the queue is empty the cursor is at the end, and everything behind
the space for the image has been written. -/
theorem queued_filling
    (hf : ops.Faithful ready view fun id => id.toNat ≤ top / chunkSizeBytes)
    (htop : top ≤ 2 ^ 32 * chunkSizeBytes)
    (hfound : Found t) (hsup : t.supported = true)
    (hsound : ∀ path s, Named t path s → s.isReg = true →
      Sound (sourceAt openAt root path))
    (htotal : totalLen t (sourceAt openAt root) = top)
    {b : ChunkBuilder σ} (hnew : Refines ready view top b .empty)
    {scan : MetaFSBuilder} {off : Nat}
    (hscan : scanDfs heap t (start heap) = some (scan, off)) {fuel : Nat}
    (hfuel : t.extent ≤ fuel) :
    ∃ q, queued ops openAt fuel heap root t b = some q ∧ q.err = .ok
      ∧ q.start = 0 ∧ q.size = usizeSize + t.extent
      ∧ Filling ready view top q.size 0 q.chunks := by
  have hlast : top < 2 ^ 64 := by
    have := chunkSizeBytes_eq
    omega
  obtain ⟨hpos, hfits, hat⟩ := scanned hscan
  rw [totalLen, ← hpos] at htotal
  obtain ⟨b₁, hreserve, hrefines⟩ := hnew.serve hf htop
    (r := .reserve scan.currentPos)
    (show 0 + scan.currentPos ≤ top by omega) hlast
  have hcursor : (flat FlatFile.empty (.reserve scan.currentPos)).cursor
      = scan.currentPos := Nat.zero_add _
  rw [serve, flatReply] at hreserve
  have hfilling : Filling ready view top scan.currentPos
      ([({ pos := usizeSize, path := [], tree := t } : Item)].map fun x =>
        dataLen (sizeAt (sourceAt openAt root)) x.path x.tree).sum b₁ := by
    refine ⟨_, hrefines, ?_, Nat.le_of_eq hcursor.symm, fun a hlo hhi => ?_⟩
    · rw [hcursor, List.map_singleton, List.sum_singleton]
      exact htotal
    · rw [hcursor] at hhi
      omega
  obtain ⟨vs, m, b₂, hvisits, hfilled, -⟩ :=
    visits_turns (serves_filling hf htop scan.currentPos) hfound hat
      (by omega : usizeSize + t.extent ≤ scan.dataSize.1) hsound fuel _ _ b₁
      (walkInv_start hsup) hfilling (by simpa using hfuel)
  rw [List.map_singleton, Item.queued,
    show root ++ slashed [] = root from List.append_nil root] at hvisits
  refine ⟨{ root := off, visited := vs, err := .ok, data := m
            size := scan.currentPos, start := 0, chunks := b₂ },
    ?_, rfl, rfl, hpos, hfilled⟩
  exact (queued_ok_iff.2 ⟨rfl, scan, _, b₁, hscan, rfl, hreserve, rfl, rfl,
    hvisits⟩).1

/-- A completed build of files whose reads succeed stores exactly the
chunks up to that of the last address. -/
theorem gapless_of_build
    (hf : ops.Faithful ready view fun id => id.toNat ≤ top / chunkSizeBytes)
    (htop : top < 2 ^ 32 * chunkSizeBytes)
    (hfound : Found t) (hsup : t.supported = true)
    (hsound : ∀ path s, Named t path s → s.isReg = true →
      Sound (sourceAt openAt root path))
    (htotal : totalLen t (sourceAt openAt root) = top)
    {s : σ} (hready : ready s) (hempty : ∀ id, view s id = none) {buff : Mem}
    {fuel : Nat} {r : Built σ}
    (hbuild : build ops openAt fuel heap root t (new s buff) = some r) :
    r.err = .ok ∧ ready r.chunks.store
      ∧ ∀ id, (view r.chunks.store id).isSome
        ↔ id.toNat ≤ top / chunkSizeBytes := by
  cases hscan : scanDfs heap t (start heap) with
  | none =>
      unfold build at hbuild
      simp only [hscan] at hbuild
      cases hbuild
  | some scan =>
      have hconfined := hf.confined
      have hwithin : ChunkOps.Within ready view
          (fun id => id.toNat ≤ top / chunkSizeBytes) s := by
        refine ⟨hready, fun id hid => ?_⟩
        rw [hempty id] at hid
        cases hid
      obtain ⟨q, hqueued, hok, hstart, hsize, f, hrefines, hend, hlo,
        hfilled⟩ := queued_filling hconfined (Nat.le_of_lt htop) hfound hsup
          hsound htotal (refines_new hwithin hempty buff) hscan
          (Nat.le_add_left t.extent fuel)
      have himage : (q.data.read 0 q.size).length = q.size :=
        Mem.length_read _ _ _
      have hne : q.data.read 0 q.size ≠ [] := by
        have h8 : usizeSize = 8 := rfl
        apply List.ne_nil_of_length_pos
        omega
      obtain ⟨reply, b₁, b₂, hwrite, hflush, ⟨hready', hroom⟩, hall⟩ :=
        stored_of_filled hconfined htop hrefines hend hne (by omega)
          (by rw [himage, ← hend]; exact hfilled)
      have hmono := build_mono hbuild t.extent
      rw [build_eq_queued, hqueued] at hmono
      simp only [hok, ne_eq, not_true_eq_false, if_false, hstart, hwrite,
        hflush, Option.some.injEq] at hmono
      rw [← hmono]
      exact ⟨rfl, hready', fun id => ⟨hroom id, hall id⟩⟩

end MetaFSBuilder

end Distfs

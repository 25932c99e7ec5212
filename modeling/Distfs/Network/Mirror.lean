/-
A node that fetches all blocks before it serves them (`mirror` in
`main.cc`), and one that is started again.

# The loop

`main` calls `fetch_chunk` for one id after the other and ignores what it
returns. The counter is a `uint32_t` and the bound the length of a vector,
so the loop has no end from `2 ^ 32` hashes on.

# Serving again

`serve` knows nothing of the process that has filled the directory: the
constructor of `ChunkStore` scans it, and the metadata are made anew from
the blocks. They come out the same (`Publishes.servesAgain`). So the file
system that a mirror serves has the id of the one it was fetched from, and
what `build` has left is served with the metadata of the build.
-/
import Distfs.Data.Restart
import Distfs.Network.Publication

namespace Distfs

open ConnectionPool

/-- The loop of `main` from the id `k` on, with `n` ids to go. -/
def mirrorFrom (checksum : Bytes → Bytes) (hashes : List Bytes)
    (ios : Nat → Io) (heap : Nat → Mem) (net : Nat → UInt32 → List Round) :
    Nat → Nat → ChunkStore × Nat → Option (ChunkStore × Nat)
  | 0, _, s => some s
  | n + 1, k, s =>
      match fetchInto checksum hashes ios heap net (UInt32.ofNat k) s with
      | none => none
      | some (_, s) => mirrorFrom checksum hashes ios heap net n (k + 1) s

/-- The loop of `main`; `none` if it does not end. -/
def mirror (checksum : Bytes → Bytes) (hashes : List Bytes)
    (ios : Nat → Io) (heap : Nat → Mem) (net : Nat → UInt32 → List Round)
    (s : ChunkStore × Nat) : Option (ChunkStore × Nat) :=
  if 2 ^ 32 ≤ hashes.length then none
  else mirrorFrom checksum hashes ios heap net hashes.length 0 s

/-- How the call for an id ends. It is the `id`-th call of the loop. -/
def mirrorCall (checksum : Bytes → Bytes) (hashes : List Bytes)
    (heap : Nat → Mem) (net : Nat → UInt32 → List Round) (id : UInt32) :
    FetchEnd :=
  (fetchChunk checksum hashes id (heap id.toNat) (net id.toNat id)).1

/-- A replica with room for the ids up to `last`, in a directory of its
own. -/
structure Spacious (published : UInt32 → Option Bytes) (last : Nat)
    (s : ChunkStore) : Prop where
  replica : Replica published s
  roomy : ∃ used old, Roomy last s used old
  left : ChunkStore.LeftBehind s.files

section Mirror

variable {z : Lz4} {checksum : Bytes → Bytes} {hashes : List Bytes}
  {published : UInt32 → Option Bytes} {d : StoreMetadata}
  {server s : ChunkStore} {ios : Nat → Io} {heap : Nat → Mem}
  {net : Nat → UInt32 → List Round} {last : Nat} {id : UInt32}

theorem Spacious.new {size : Nat} (hsize : last < size) :
    Spacious published last (.new size) := by
  have hpos : 0 < size := Nat.lt_of_le_of_lt (Nat.zero_le _) hsize
  obtain ⟨old, hroomy⟩ :=
    Roomy.start (ChunkStore.isEmpty_new hpos) hsize
  refine ⟨Replica.new hpos, ⟨[], old, hroomy⟩, fun p content hp => ?_⟩
  cases hp

/-- One call adds the block if it returns OK, and changes nothing else. -/
theorem Spacious.fetched (h : Spacious published last s)
    (hc : Checked checksum hashes published) (hid : id.toNat ≤ last)
    (hios : ∀ n, (ios n).AllOk) {k : Nat}
    (hsent : NoCollision checksum published id (net k id))
    {code : ErrorCode}
    (hcode : (fetchChunk checksum hashes id (heap k) (net k id)).1
      = .ret code) :
    ∃ t, fetchInto checksum hashes ios heap net id (s, k)
        = some (code, (t, k + 1))
      ∧ Spacious published last t
      ∧ ∀ i, t.fileOf i
        = if i = id ∧ code = .ok then published i else s.fileOf i := by
  obtain ⟨writes, hfetch⟩ : ∃ writes,
      fetchChunk checksum hashes id (heap k) (net k id)
        = (.ret code, writes) := ⟨_, Prod.ext hcode rfl⟩
  rcases fetchChunk_ret _ _ hfetch with ⟨rfl, rfl⟩ | ⟨rfl, block, rfl⟩
  · refine ⟨s, ?_, h, fun i => (if_neg fun hi => ?_).symm⟩
    · simp only [fetchInto, hfetch, storeWrites, Option.map_some]
    · cases hi.2
  · obtain ⟨-, hblock⟩ := fetchChunk_published hc (net k id) hsent
      (heap k) (id, block) (by rw [hfetch]; exact List.mem_singleton_self _)
    obtain ⟨used, old, hroomy⟩ := h.roomy
    obtain ⟨t, hwrite, hroomy', hfiles⟩ := hroomy.write hid (hios k) block
    refine ⟨t, ?_, ⟨?_, ⟨_, old, hroomy'⟩, ?_⟩, fun i => ?_⟩
    · simp only [fetchInto, hfetch, storeWrites, hwrite, Option.map_some]
    · exact h.replica.of_writeChunk (hios k).progress hblock hwrite
    · intro p content hp
      rcases ChunkStore.files_writeChunk hwrite hp with hold | ⟨rfl, hlen⟩
      · exact h.left p content hold
      · exact ⟨id, rfl, hlen.trans (hc.length id block hblock)⟩
    · rw [hfiles]
      by_cases hi : i = id
      · rw [if_pos hi, if_pos ⟨hi, rfl⟩, hi, hblock]
      · rw [if_neg hi, if_neg fun h => hi h.1]

/-- The calls from the id `k` on. -/
theorem mirrorFrom_spec (hc : Checked checksum hashes published)
    (hios : ∀ n, (ios n).AllOk) (hlast : last < 2 ^ 32) (n : Nat) :
    ∀ (k : Nat) (s : ChunkStore), Spacious published last s →
      k + n ≤ last + 1 →
      (∀ id : UInt32, k ≤ id.toNat → id.toNat < k + n →
        NoCollision checksum published id (net id.toNat id)) →
      (∀ id : UInt32, k ≤ id.toNat → id.toNat < k + n →
        ∃ code, mirrorCall checksum hashes heap net id = .ret code) →
      ∃ t, mirrorFrom checksum hashes ios heap net n k (s, k)
          = some (t, k + n)
        ∧ Spacious published last t
        ∧ ∀ i : UInt32, t.fileOf i
          = if k ≤ i.toNat ∧ i.toNat < k + n
              ∧ mirrorCall checksum hashes heap net i = .ret .ok
            then published i else s.fileOf i := by
  induction n with
  | zero =>
      intro k s h _ _ _
      exact ⟨s, rfl, h, fun i => (if_neg fun hi => by omega).symm⟩
  | succ n ih =>
      intro k s h hroom hsent hreturns
      have hto : (UInt32.ofNat k).toNat = k :=
        ChunkBuilder.toNat_ofNat_of_lt (by omega)
      obtain ⟨code, hcode⟩ := hreturns (UInt32.ofNat k) (by omega) (by omega)
      have hcode' := hcode
      rw [mirrorCall, hto] at hcode'
      have hcollision := hsent (UInt32.ofNat k) (by omega) (by omega)
      rw [hto] at hcollision
      obtain ⟨u, hfetch, hu, hufiles⟩ :=
        h.fetched hc (by omega) hios hcollision hcode'
      obtain ⟨t, hrun, ht, hfiles⟩ := ih (k + 1) u hu (by omega)
        (fun id hge hlt => hsent id (by omega) (by omega))
        fun id hge hlt => hreturns id (by omega) (by omega)
      refine ⟨t, ?_, ht, fun i => ?_⟩
      · rw [mirrorFrom]
        simp only [hfetch]
        rw [hrun, Nat.add_right_comm, Nat.add_assoc]
      · rw [hfiles, hufiles]
        by_cases hi : i = UInt32.ofNat k
        · have hik : i.toNat = k := by rw [hi, hto]
          rw [if_neg fun h => by omega]
          refine if_congr ?_ rfl rfl
          rw [hi, hcode, hto]
          constructor
          · rintro ⟨-, rfl⟩
            exact ⟨Nat.le_refl k, by omega, rfl⟩
          · rintro ⟨-, -, hok⟩
            exact ⟨rfl, FetchEnd.ret.inj hok⟩
        · have hik : i.toNat ≠ k := fun heq => hi (by
            rw [← heq, UInt32.ofNat_toNat])
          have hother : ¬ (i = UInt32.ofNat k ∧ code = .ok) :=
            fun h => hi h.1
          rw [if_neg hother]
          apply if_congr _ rfl rfl
          constructor
          · rintro ⟨hge, hlt, hok⟩
            exact ⟨by omega, by omega, hok⟩
          · rintro ⟨hge, hlt, hok⟩
            exact ⟨by omega, by omega, hok⟩

/-- A published block has one of the ids the loop goes through. -/
theorem Publishes.id_lt (h : Publishes z checksum published d server)
    {block : Bytes} (hblock : published id = some block) :
    id.toNat < d.blockHashes.length :=
  (List.getElem?_eq_some_iff.1 (h.hash id block hblock)).1

-- ======================================================= serving again

/-- The blocks are those of the ids below the number of hashes. -/
theorem Publishes.isSome_iff (h : Publishes z checksum published d server) :
    (server.fileOf id).isSome ↔ id.toNat < d.blockHashes.length := by
  constructor
  · intro hsome
    obtain ⟨block, hfile⟩ := Option.isSome_iff_exists.1 hsome
    exact h.id_lt (h.replica.files id block hfile)
  · intro hlt
    obtain ⟨block, hblock⟩ := h.listed id hlt
    rw [h.holds id block hblock]
    rfl

/-- There are as many hashes as blocks. -/
theorem Publishes.length_eq (h : Publishes z checksum published d server)
    {n : Nat} (hn : n < 2 ^ 32)
    (hblocks : ∀ id, (server.fileOf id).isSome ↔ id.toNat < n) :
    d.blockHashes.length = n := by
  apply Nat.le_antisymm
  · by_contra hlong
    have hto : (UInt32.ofNat n).toNat = n :=
      ChunkBuilder.toNat_ofNat_of_lt hn
    have hsome := (@Publishes.isSome_iff _ _ _ _ _ (UInt32.ofNat n) h).2
      (by omega)
    have := (hblocks _).1 hsome
    omega
  · by_contra hshort
    have hto : (UInt32.ofNat d.blockHashes.length).toNat
        = d.blockHashes.length := ChunkBuilder.toNat_ofNat_of_lt (by omega)
    have hsome := (hblocks (UInt32.ofNat d.blockHashes.length)).2 (by omega)
    have := h.isSome_iff.1 hsome
    omega

/-- The metadata are those of the blocks. -/
theorem Publishes.eq_of_hashes (h : Publishes z checksum published d server)
    (hfew : d.blockHashes.length < 2 ^ 32) {d' : StoreMetadata}
    (hid : d'.id = StoreMetadata.hashId d'.blockHashes)
    (hlength : d'.blockHashes.length = d.blockHashes.length)
    (hget : ∀ i, i < d.blockHashes.length → d'.blockHashes[i]?
      = (server.fileOf (UInt32.ofNat i)).map checksum) : d' = d := by
  have hhashes : d'.blockHashes = d.blockHashes := by
    apply List.ext_getElem?
    intro i
    by_cases hi : i < d.blockHashes.length
    · have hto : (UInt32.ofNat i).toNat = i :=
        ChunkBuilder.toNat_ofNat_of_lt (by omega)
      obtain ⟨block, hblock⟩ := h.listed (UInt32.ofNat i) (by omega)
      have hhash := h.hash _ block hblock
      rw [hto] at hhash
      rw [hget i hi, h.holds _ block hblock, hhash]
      rfl
    · rw [List.getElem?_eq_none (by omega), List.getElem?_eq_none (by omega)]
  obtain ⟨id, blockHashes⟩ := d
  obtain ⟨id', blockHashes'⟩ := d'
  simp only at hhashes hid
  have hid₀ := h.id
  simp only at hid₀
  rw [hid, hid₀, hhashes]

/-- The store that a restart finds is the one that was left. -/
theorem Publishes.restart (h : Publishes z checksum published d server)
    (hleft : ChunkStore.LeftBehind server.files)
    (hfew : d.blockHashes.length < 2 ^ 32) {size : Nat} (hsize : 0 < size)
    (hroom : d.blockHashes.length ≤ size) {dir : Listing}
    (hshows : ChunkStore.Shows dir server.files) {starts : UInt32 → Io}
    (hstarts : ∀ id, (starts id).AllOk) :
    ∃ u used, ChunkStore.construct dir starts size server.files = some u
      ∧ (∀ id, u.fileOf id = server.fileOf id)
      ∧ Roomy (d.blockHashes.length - 1) u used [] := by
  obtain ⟨u, used, hconstruct, hu, hall⟩ := ChunkStore.construct_entered hsize
    hleft hshows fun id => (hstarts id).unlink
  have hscan : ∀ id, id ∈ ChunkStore.scan dir
      ↔ id.toNat < d.blockHashes.length := fun id =>
    (ChunkStore.mem_scan hleft hshows id).trans h.isSome_iff
  have hcard := StoreMetadata.card_of_below (Nat.le_of_lt hfew) hscan
  have hrecovers := hu.recovers (ChunkStore.mem_scan hleft hshows) hall hleft
  have hin := hrecovers.few (by rw [hcard]; exact hroom)
  have htracked : ∀ id, id ∈ used → id ∈ u.collector.ids := by
    intro id hid
    have hmem : id ∈ u.available := by
      rw [hin]
      exact (hall id).1 hid
    exact ((hu.inStore id).1 hmem).2 hid
  have hfiles : ∀ id, u.fileOf id = server.fileOf id := fun id => by
    rw [hu.fileOf, if_pos (htracked id)]
    rfl
  refine ⟨u, used, hconstruct, hfiles, ?_, ?_, fun id hid => ?_,
    fun id hid => ?_, fun id => ?_⟩
  · rw [hu.size]
    omega
  · rw [List.append_nil]
    exact hu.tracks
  · have := (hscan id).1 ((hall id).1 hid)
    omega
  · rw [hfiles, h.isSome_iff] at hid
    exact (hall id).2 ((hscan id).2 hid)
  · rw [hfiles, h.isSome_iff, ← hscan]
    have hmem : id ∈ u.inStore ↔ id ∈ u.available := Iff.rfl
    rw [hmem, hin]

/-- A process that finds these files, listed in any order, and has room for
the chunks serves them with the metadata `d`. -/
def ServesAgain (z : Lz4) (checksum : Bytes → Bytes)
    (published : UInt32 → Option Bytes) (d : StoreMetadata)
    (files : ChunkPath → Option Bytes) : Prop :=
  ∀ (size : Nat) (dir : Listing) (starts : UInt32 → Io) (ios : Nat → Io),
    0 < size → d.blockHashes.length ≤ size → ChunkStore.Shows dir files →
    (∀ id, (starts id).AllOk) → (∀ n, (ios n).AllOk) →
    ∃ u v, ChunkStore.construct dir starts size files = some u
      ∧ StoreMetadata.ofStore checksum ios u = some (.ok d, v)
      ∧ Publishes z checksum published d v

/-- What a node publishes is still there when it is started again. -/
theorem Publishes.servesAgain (hz : z.Documented)
    (h : Publishes z checksum published d server)
    (hleft : ChunkStore.LeftBehind server.files)
    (hfew : d.blockHashes.length < 2 ^ 32) :
    ServesAgain z checksum published d server.files := by
  intro size dir starts ios hsize hroom hshows hstarts hios
  obtain ⟨u, used, hconstruct, hfiles, hroomy⟩ :=
    h.restart hleft hfew hsize hroom hshows hstarts
  have hlen : ∀ id block, u.fileOf id = some block →
      block.length ≤ chunkSizeBytes := by
    intro id block hfile
    rw [hfiles] at hfile
    exact h.length hz (h.replica.files id block hfile)
  have hids : ∀ id, id ∈ u.available ↔ id.toNat < d.blockHashes.length :=
    fun id => by
      rw [← h.isSome_iff, ← hfiles]
      exact hroomy.listed id
  obtain ⟨d', v, hstore, hlength, hget⟩ :=
    @StoreMetadata.ofStore_ok checksum ios _ _ _ _ hios hroomy _ hfew hids hlen
  have hd : d' = d := h.eq_of_hashes hfew (StoreMetadata.ofStore_id hstore)
    hlength fun i hi => by rw [hget i hi, hfiles]
  obtain ⟨⟨used', hroomy'⟩, hsame⟩ :=
    StoreMetadata.ofStore_keeps hios hroomy hlen hstore
  rw [hd] at hstore
  refine ⟨u, v, hconstruct, hstore, h.id, h.compressed, h.hash, h.listed,
    ⟨hroomy'.tracks.coherent, ?_, fun id block hfile => ?_⟩,
    fun id block hblock => ?_, ⟨_, used', [], hroomy'⟩⟩
  · exact Nat.lt_of_le_of_lt (Nat.zero_le _) hroomy'.size
  · rw [hsame, hfiles] at hfile
    exact h.replica.files id block hfile
  · rw [hsame, hfiles]
    exact h.holds id block hblock

-- ===================================================== what a mirror has

/-- A replica that has all blocks publishes them. -/
theorem Spacious.publishes (hs : Spacious published last s)
    (h : Publishes z checksum published d server)
    (hall : ∀ id block, published id = some block →
      s.fileOf id = some block) : Publishes z checksum published d s := by
  obtain ⟨used, old, hroomy⟩ := hs.roomy
  exact ⟨h.id, h.compressed, h.hash, h.listed, hs.replica, hall,
    ⟨last, used, old, hroomy⟩⟩

/-- The loop leaves the blocks whose calls have returned OK, beside those
that were there. If that makes all of them, the node publishes them, and so
does one that is started over its directory. -/
theorem mirror_holds (hz : z.Documented)
    (h : Publishes z checksum published d server)
    (hfew : d.blockHashes.length < 2 ^ 32) (hios : ∀ n, (ios n).AllOk)
    (hsent : ∀ id : UInt32, id.toNat < d.blockHashes.length →
      NoCollision checksum published id (net id.toNat id))
    (hs : Spacious published last s) (hlast : last < 2 ^ 32)
    (hroom : d.blockHashes.length ≤ last + 1)
    (hreturns : ∀ id : UInt32, id.toNat < d.blockHashes.length →
      ∃ code, mirrorCall checksum d.blockHashes heap net id = .ret code) :
    ∃ t, mirror checksum d.blockHashes ios heap net (s, 0)
        = some (t, d.blockHashes.length)
      ∧ (∀ id, t.fileOf id
        = if mirrorCall checksum d.blockHashes heap net id = .ret .ok
          then published id else s.fileOf id)
      ∧ ((∀ id block, published id = some block →
          s.fileOf id = some block
            ∨ mirrorCall checksum d.blockHashes heap net id = .ret .ok) →
        Publishes z checksum published d t
          ∧ ServesAgain z checksum published d t.files) := by
  obtain ⟨t, hrun, ht, hfiles⟩ := mirrorFrom_spec (h.checked hz) hios hlast
    d.blockHashes.length 0 s hs (by omega)
    (fun id _ hlt => hsent id (by omega))
    fun id _ hlt => hreturns id (by omega)
  rw [Nat.zero_add] at hrun hfiles
  have hfiles' : ∀ id, t.fileOf id
      = if mirrorCall checksum d.blockHashes heap net id = .ret .ok
        then published id else s.fileOf id := by
    intro id
    rw [hfiles]
    by_cases hid : id.toNat < d.blockHashes.length
    · exact if_congr ⟨fun h => h.2.2, fun h => ⟨Nat.zero_le _, hid, h⟩⟩
        rfl rfl
    · -- there is neither a call nor a block
      have hnone : published id = none := by
        cases hblock : published id with
        | none => rfl
        | some block => exact absurd (h.id_lt hblock) hid
      have hempty : s.fileOf id = none := by
        cases hfile : s.fileOf id with
        | none => rfl
        | some block =>
            rw [hs.replica.files id block hfile] at hnone
            cases hnone
      rw [if_neg fun h => hid h.2.1, hnone, hempty, ite_self]
  refine ⟨t, ?_, hfiles', fun hall => ?_⟩
  · rw [mirror, if_neg (by omega), hrun]
  · have hpublishes := ht.publishes h fun id block hblock => by
      rw [hfiles']
      split
      · exact hblock
      · next hnot => exact (hall id block hblock).resolve_right hnot
    exact ⟨hpublishes, hpublishes.servesAgain hz ht.left hfew⟩

/-- A node that can be called for the one block there is. It sends that,
and nothing else. -/
theorem reaches_one_block {block : Bytes} (hz : z.Documented)
    (h : Publishes z checksum published d server)
    (hblock : published 0 = some block) :
    ∃ r, Reaches published 0 [r]
      ∧ NoCollision checksum published 0 [r] := by
  obtain ⟨reply, server', -, hserves⟩ := h.serves hz
    (show ({} : Io).AllOk from ⟨rfl, rfl, rfl, by simp⟩)
    (show ∀ a ∈ ([] : List Bool), a = true from by simp) hblock
  refine ⟨oneRound 0 (DistfsService.asStream reply), ⟨[], _, [], rfl,
    by simp, _, connectionForBlock_oneRound 0 _, hserves⟩, ?_⟩
  intro r hr st hst b hb _
  obtain ⟨-, hbytes⟩ := hserves.bytes fun b hb => h.length hz hb
  rw [List.mem_singleton.1 hr, connectionForBlock_oneRound,
    Option.some.injEq] at hst
  rw [hb, Option.some.injEq, hst] at hbytes
  exact hbytes.symm

/-- A mirror of one block. -/
theorem mirror_holds_one_block :
    ∃ published d server block ios heap net t,
      Publishes .runs StoreMetadata.digest published d server
        ∧ published 0 = some block
        ∧ mirror StoreMetadata.digest d.blockHashes ios heap net (.new 1, 0)
          = some (t, 1)
        ∧ t.fileOf 0 = some block
        ∧ Publishes .runs StoreMetadata.digest published d t
        ∧ ServesAgain .runs StoreMetadata.digest published d t.files := by
  obtain ⟨published, d, server, block, h, hblock, hhashes⟩ :=
    publishes_two_bytes
  have hlength : d.blockHashes.length = 1 := by rw [hhashes]; rfl
  obtain ⟨r, hreaches, hsent⟩ :=
    reaches_one_block Lz4.runs_documented h hblock
  have hzero : ∀ id : UInt32, id.toNat < d.blockHashes.length → id = 0 :=
    fun id hid => UInt32.toNat_inj.1 (by
      show id.toNat = 0
      omega)
  have hcall : ∀ id : UInt32, id.toNat < d.blockHashes.length →
      mirrorCall StoreMetadata.digest d.blockHashes (fun _ _ => 0)
        (fun _ _ => [r]) id = .ret .ok := by
    intro id hid
    rw [hzero id hid, mirrorCall, fetchChunk_honest
      (h.checked Lz4.runs_documented) hblock hsent hreaches]
  obtain ⟨t, hrun, hfiles, hpublishes⟩ :=
    mirror_holds Lz4.runs_documented h (by omega)
      (show ∀ n : Nat, ((fun _ => {}) n : Io).AllOk from
        fun _ => ⟨rfl, rfl, rfl, by simp⟩)
      (fun id hid => by rw [hzero id hid]; exact hsent)
      (Spacious.new Nat.one_pos : Spacious published 0 (.new 1)) (by omega)
      (by omega) fun id hid => ⟨.ok, hcall id hid⟩
  rw [hlength] at hrun
  refine ⟨published, d, server, block, _, _, _, t, h, hblock, hrun, ?_,
    hpublishes fun id b hb => .inr (hcall id (h.id_lt hb))⟩
  rw [hfiles, if_pos (hcall 0 (h.id_lt hblock))]
  exact hblock

end Mirror

-- ================================================= serving what was built

open MetaFSBuilder ChunkBuilder SourceTree

namespace CompressedStore

variable {z : Lz4} {ios : Nat → Io} {s t : ChunkStore × Nat} {id : UInt32}
  {b : Bytes}

/-- The operations leave files of chunks behind. -/
theorem leftBehind_write (hz : z.Documented)
    (hleft : ChunkStore.LeftBehind s.1.files) {code : ErrorCode}
    (h : (ops z ios).writeChunk s id b = some (code, t)) :
    ChunkStore.LeftBehind t.1.files := by
  have hle := length_compress_le hz b
  simp only [ops] at h
  split at h
  · cases h
  · next hwrite =>
    cases h
    simp only [writeChunk] at hwrite
    split at hwrite
    · cases hwrite
      exact hleft
    · intro p content hp
      rcases ChunkStore.files_writeChunk hwrite hp with hold | ⟨rfl, hshort⟩
      · exact hleft p content hold
      · rw [List.length_take] at hshort
        exact ⟨id, rfl, (hshort.trans (Nat.min_le_right _ _)).trans hle⟩

theorem leftBehind_read (hleft : ChunkStore.LeftBehind s.1.files)
    {x : Except ErrorCode Bytes}
    (h : (ops z ios).readChunk s id = some (x, t)) :
    ChunkStore.LeftBehind t.1.files := by
  have hkept : ∀ {y : Except ErrorCode Bytes} {u : ChunkStore},
      s.1.readChunk (ios s.2) id = some (y, u) →
      ChunkStore.LeftBehind u.files :=
    fun hread p content hp => hleft p content
      (ChunkStore.files_readChunk hread hp)
  simp only [ops] at h
  split at h
  · cases h
  · next hread =>
    cases h
    simp only [readChunk] at hread
    split at hread
    · cases hread
    · next hstore =>
      cases hread
      exact hkept hstore
    · next hstore =>
      split at hread
      · cases hread
        exact hkept hstore
      · cases hread
        exact hkept hstore

/-- A store in a directory of its own stays in it. -/
theorem follows_leftBehind (hz : z.Documented) (ios : Nat → Io) :
    (ops z ios).Follows (ops z ios) (fun _ => True) fun s t =>
      t = s ∧ ChunkStore.LeftBehind s.1.files :=
  .invariant (fun _ _ _ _ _ hleft _ h => leftBehind_write hz hleft h)
    fun _ _ _ _ hleft _ h => leftBehind_read hleft h

end CompressedStore

section Build

variable {z : Lz4} {ios ios' : Nat → Io} {openAt : Bytes → SourceFile}
  {heap : Nat → Mem} {root : Bytes} {t : SourceTree} {s : ChunkStore}
  {buff : Mem} {fuel : Nat} {r : Built (ChunkStore × Nat)}

/-- A build leaves files of chunks behind. -/
theorem BuiltInto.left (h : BuiltInto z ios openAt heap root t s buff fuel r)
    (hleft : ChunkStore.LeftBehind s.files) :
    ChunkStore.LeftBehind r.chunks.store.1.files :=
  (MetaFSBuilder.build_lockstep (CompressedStore.follows_leftBehind
    h.documented ios) h.built).invariant hleft

/-- The store at the end of a build publishes itself. -/
theorem BuiltInto.publishes_self
    (h : BuiltInto z ios openAt heap root t s buff fuel r)
    (hstatic : Static t) (hsup : t.supported = true)
    {checksum : Bytes → Bytes} {d : StoreMetadata} {server : ChunkStore}
    (hpublishes : Publishes z checksum r.chunks.store.1.fileOf d server) :
    Publishes z checksum r.chunks.store.1.fileOf d r.chunks.store.1 := by
  obtain ⟨used, old, hroomy⟩ := (h.leaves hstatic hsup).1.roomy
  refine ⟨hpublishes.id, hpublishes.compressed, hpublishes.hash,
    hpublishes.listed, ⟨hroomy.tracks.coherent, ?_, fun _ _ hfile => hfile⟩,
    fun _ _ hblock => hblock, ⟨_, used, old, hroomy⟩⟩
  exact Nat.lt_of_le_of_lt (Nat.zero_le _) hroomy.size

/-- A tree that one process builds is served by another one that finds
the directory: with the metadata the build would have had, and every block
of it. -/
theorem built_then_served
    (h : BuiltInto z ios openAt heap root t s buff fuel r)
    (hleft : ChunkStore.LeftBehind s.files) (hstatic : Static t)
    (hsup : t.supported = true) (checksum : Bytes → Bytes)
    (hios' : ∀ n, (ios' n).AllOk) :
    ∃ d, (∃ server, StoreMetadata.ofStore checksum ios' r.chunks.store.1
        = some (.ok d, server))
      ∧ d.blockHashes.length = chunkCount t (sourceAt openAt root)
      ∧ ServesAgain z checksum r.chunks.store.1.fileOf d
        r.chunks.store.1.files := by
  obtain ⟨d, server, hstore, hpublishes⟩ :=
    h.publishes checksum hstatic hsup hios'
  have hself := h.publishes_self hstatic hsup hpublishes
  have hlength := hself.length_eq h.few (h.blocks hstatic hsup)
  have hfew := h.few
  exact ⟨d, ⟨server, hstore⟩, hlength, hself.servesAgain h.documented
    (h.left hleft) (by omega)⟩

/-- One file of two bytes, built and served. -/
theorem built_then_served_two_bytes :
    ∃ r, BuiltInto .runs (fun _ => {}) (fun _ => StoreMetadata.twoBytes)
        (fun _ _ => 0) [115] (MetaFileSystem.oneFile []) (.new 1) (fun _ => 0)
        200 r
      ∧ ∃ d, d.blockHashes.length = 1
        ∧ ServesAgain .runs StoreMetadata.digest r.chunks.store.1.fileOf d
          r.chunks.store.1.files := by
  obtain ⟨r, h⟩ := builtInto_two_bytes
  have hcount : chunkCount (MetaFileSystem.oneFile [])
      (sourceAt (fun _ => StoreMetadata.twoBytes) [115]) = 1 := by decide
  obtain ⟨d, -, hlength, hagain⟩ := built_then_served h
    (fun p content hp => by cases hp) (MetaFileSystem.oneFile_static []) rfl
    StoreMetadata.digest (show ∀ n : Nat, ((fun _ => {}) n : Io).AllOk from
      fun _ => ⟨rfl, rfl, rfl, by simp⟩)
  exact ⟨r, h, d, hlength.trans hcount, hagain⟩

end Build

end Distfs

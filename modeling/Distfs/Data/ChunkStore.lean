/-
The chunk store: one file a chunk under a base directory, the set of
ids it believes it has, and a collector that bounds them
(`data/chunk_store.{h,cc}`).

# System calls

The directory is a partial map from paths (relative to `base_path`) to
contents. How the calls of one operation end is its `Io`: whether
`mkdir`, `open` or `unlink` fail for a reason other than the one the
code treats as normal (`EEXIST`, `ENOENT`), and the script of its
`read` or `write` calls. `Io.AllOk` is "all syscalls succeed"; short
transfers are still allowed.

# Undefined behaviour

The collector of a store of capacity zero takes the back of an empty
queue. Operations that update the collector are `none` there; on a
coherent collector this is the only way (`touch_defined`).

# Buffers

`char *buffer, uint32_t size` is the byte list of that length. What a
failed read leaves in the caller's buffer is not modelled: no caller
looks at it.
-/
import Distfs.Common.LruCollector
import Distfs.Lib.Transfer
import Mathlib.Data.Nat.Digits.Defs
import Mathlib.Data.Nat.Digits.Lemmas
import Mathlib.Data.Finset.Basic

namespace Distfs

open Transfer

-- ========================================================== paths

/-- One digit of `%X`. -/
def hexDigit (d : Nat) : UInt8 :=
  UInt8.ofNat (if d < 10 then 48 + d else 55 + d)

/-- `%X`. -/
def hexUpper (n : Nat) : Bytes :=
  if n = 0 then [48] else ((Nat.digits 16 n).reverse.map hexDigit)

/-- A path below `base_path`: two directories and a file name. -/
structure ChunkPath where
  outer : Bytes
  inner : Bytes
  name : Bytes
  deriving DecidableEq

/-- `id_to_path`: `%s/%X/%X/%X` of the two low bytes and the id. -/
def idToPath (id : UInt32) : ChunkPath :=
  { outer := hexUpper (id &&& 0xFF).toNat
    inner := hexUpper ((id >>> 8) &&& 0xFF).toNat
    name := hexUpper id.toNat }

private theorem hexDigit_inj {d e : Nat} (hd : d < 16) (he : e < 16)
    (h : hexDigit d = hexDigit e) : d = e := by
  have h' := congrArg UInt8.toNat h
  simp only [hexDigit, UInt8.toNat_ofNat'] at h'
  split at h' <;> split at h' <;> omega

private theorem map_hexDigit_inj {l k : List Nat} (hl : ∀ d ∈ l, d < 16)
    (hk : ∀ d ∈ k, d < 16) (h : l.map hexDigit = k.map hexDigit) :
    l = k := by
  induction l generalizing k with
  | nil => simpa using h.symm
  | cons d l ih =>
      cases k with
      | nil => cases h
      | cons e k =>
          injection h with hd htl
          rw [hexDigit_inj (hl d List.mem_cons_self)
              (hk e List.mem_cons_self) hd,
            ih (fun d hd => hl d (List.mem_cons_of_mem _ hd))
              (fun d hd => hk d (List.mem_cons_of_mem _ hd)) htl]

theorem hexUpper_inj {n m : Nat} (h : hexUpper n = hexUpper m) : n = m := by
  have hdig : ∀ n : Nat, n ≠ 0 → hexUpper n ≠ [48] := by
    intro n hn h48
    rw [hexUpper, if_neg hn] at h48
    have hone : (Nat.digits 16 n).reverse = [0] :=
      map_hexDigit_inj (k := [0]) (fun d hd =>
        Nat.digits_lt_base (by omega) (List.mem_reverse.1 hd)) (by simp) h48
    have hval := Nat.ofDigits_digits 16 n
    rw [← List.reverse_reverse (Nat.digits 16 n), hone] at hval
    exact hn hval.symm
  rcases Nat.eq_zero_or_pos n with rfl | hn
  · by_contra hm
    exact hdig m (fun h0 => hm h0.symm) h.symm
  · rcases Nat.eq_zero_or_pos m with rfl | hm
    · exact absurd h (hdig n (by omega))
    · rw [hexUpper, if_neg (by omega), hexUpper, if_neg (by omega)] at h
      have hrev := map_hexDigit_inj (fun d hd =>
          Nat.digits_lt_base (by omega) (List.mem_reverse.1 hd)) (fun d hd =>
          Nat.digits_lt_base (by omega) (List.mem_reverse.1 hd)) h
      exact Nat.digits_inj_iff.1 (List.reverse_injective hrev)

/-- Different chunks have different files. -/
theorem idToPath_inj {i j : UInt32} (h : idToPath i = idToPath j) :
    i = j :=
  UInt32.toNat_inj.1 (hexUpper_inj (congrArg ChunkPath.name h))

-- ====================================================== operations

/-- How the system calls of one operation end. -/
structure Io where
  mkdirFails : Bool := false
  openFails : Bool := false
  unlinkFails : Bool := false
  script : List Call := []

/-- All system calls succeed; transfers may be short. -/
structure Io.AllOk (io : Io) : Prop where
  mkdir : io.mkdirFails = false
  openOk : io.openFails = false
  unlink : io.unlinkFails = false
  progress : ∀ c ∈ io.script, c.Progress

/-- `ChunkStore`. -/
structure ChunkStore where
  files : ChunkPath → Option Bytes
  inStore : Finset UInt32
  collector : LruCollector

namespace ChunkStore

/-- The content of a chunk's file. -/
def fileOf (s : ChunkStore) (id : UInt32) : Option Bytes :=
  s.files (idToPath id)

/-- Replace the file of a chunk, or with `none` unlink it. -/
def setFile (s : ChunkStore) (id : UInt32) (content : Option Bytes) :
    ChunkStore :=
  { s with files := fun p =>
      if p = idToPath id then content else s.files p }

@[simp] theorem fileOf_setFile (s : ChunkStore) (id : UInt32)
    (content : Option Bytes) (i : UInt32) :
    (s.setFile id content).fileOf i
      = if i = id then content else s.fileOf i := by
  simp only [fileOf, setFile]
  by_cases h : i = id
  · rw [if_pos h, if_pos (congrArg idToPath h)]
  · rw [if_neg h, if_neg fun hp => h (idToPath_inj hp)]

@[simp] theorem inStore_setFile (s : ChunkStore) (id : UInt32)
    (content : Option Bytes) :
    (s.setFile id content).inStore = s.inStore := rfl

@[simp] theorem collector_setFile (s : ChunkStore) (id : UInt32)
    (content : Option Bytes) :
    (s.setFile id content).collector = s.collector := rfl

/-- The store its constructor builds over an empty directory. -/
def new (size : Nat) : ChunkStore :=
  { files := fun _ => none, inStore := ∅, collector := .new size }

/-- `remove_chunk`. -/
def removeChunk (s : ChunkStore) (io : Io) (id : UInt32) :
    ErrorCode × ChunkStore :=
  match s.fileOf id with
  | none => (.notFound, s)
  | some _ =>
      if io.unlinkFails then (.internalError, s)
      else (.ok, { s.setFile id none with inStore := s.inStore.erase id })

/-- `collector->update(id)`, with `remove_chunk` as the remover. -/
def touch (s : ChunkStore) (io : Io) (id : UInt32) : Option ChunkStore :=
  match s.collector.update id with
  | none => none
  | some (collector, none) => some { s with collector := collector }
  | some (collector, some last) =>
      some ({ s with collector := collector }.removeChunk io last).2

/-- `read_chunk`: at most `CHUNK_SIZE_BYTES` bytes of the file. -/
def readChunk (s : ChunkStore) (io : Io) (id : UInt32) :
    Option (Except ErrorCode Bytes × ChunkStore) :=
  if io.openFails then some (.error .internalError, s)
  else
    match s.fileOf id with
    | none => some (.error .notFound, s)
    | some content =>
        match s.touch io id with
        | none => none
        | some s =>
            let r := readLoop { rest := content, script := io.script }
              chunkSizeBytes
            if r.failed then some (.error .internalError, s)
            else some (.ok r.got, s)

/-- `create_base_dir`: every directory is made or was there. -/
def createBaseDir (io : Io) : ErrorCode :=
  if io.mkdirFails then .internalError else .ok

/-- `write_chunk`. The file is truncated when it is opened, so it holds
what the write loop got through, whatever the code returned. -/
def writeChunk (s : ChunkStore) (io : Io) (id : UInt32) (buffer : Bytes) :
    Option (ErrorCode × ChunkStore) :=
  if createBaseDir io ≠ .ok then some (createBaseDir io, s)
  else if io.openFails then some (.internalError, s)
  else
    let r := writeLoop io.script buffer
    let s := s.setFile id (some r.written)
    if r.failed then some (.internalError, s)
    else
      match s.touch io id with
      | none => none
      | some s => some (.ok, { s with inStore := insert id s.inStore })

/-- `available`. -/
def available (s : ChunkStore) : Finset UInt32 := s.inStore

-- ================================================ the collector's part

variable {s s' : ChunkStore} {io : Io} {id : UInt32}

@[simp] theorem collector_removeChunk :
    (s.removeChunk io id).2.collector = s.collector := by
  unfold removeChunk
  split
  · rfl
  · split <;> rfl

/-- Removing a chunk leaves the files of the others alone. -/
theorem fileOf_removeChunk_ne {i : UInt32} (h : i ≠ id) :
    (s.removeChunk io id).2.fileOf i = s.fileOf i := by
  unfold removeChunk
  split
  · rfl
  · split
    · rfl
    · show (s.setFile id none).fileOf i = _
      rw [fileOf_setFile, if_neg h]

/-- What one collector update does to the store: it evicts at most one
chunk, never the one in use, and keeps the collector coherent with the
chunk in use tracked. -/
theorem touch_spec (hc : s.collector.Coherent)
    (h : s.touch io id = some s') :
    s'.fileOf id = s.fileOf id
      ∧ s'.collector.Coherent
      ∧ s'.collector.size = s.collector.size
      ∧ id ∈ s'.collector.ids := by
  cases hup : s.collector.update id with
  | none =>
      rw [touch, hup] at h
      cases h
  | some r =>
      obtain ⟨c', hc', hcoh, hsize, hids⟩ :=
        LruCollector.update_spec hc id (LruCollector.update_defined hc hup)
      have hmem : id ∈ c'.ids := by
        rw [hids]
        exact Recency.mem_touch_self _ _ _
      unfold touch at h
      rw [hc'] at h
      cases hev : Recency.evicted s.collector.size s.collector.ids id with
      | none =>
          rw [hev] at h
          injection h with h
          subst h
          exact ⟨rfl, hcoh, hsize, hmem⟩
      | some last =>
          rw [hev] at h
          injection h with h
          subst h
          refine ⟨?_, ?_⟩
          · rw [fileOf_removeChunk_ne (Recency.evicted_ne hev).symm]
            rfl
          · rw [collector_removeChunk]
            exact ⟨hcoh, hsize, hmem⟩

/-- Using a tracked chunk, or any chunk of a store with room for one,
is defined. -/
theorem touch_defined (hc : s.collector.Coherent)
    (hpos : 0 < s.collector.size ∨ s.collector.ids ≠ []) (io : Io)
    (id : UInt32) : ∃ s', s.touch io id = some s' := by
  obtain ⟨c', hc', -⟩ := LruCollector.update_spec hc id hpos
  unfold touch
  rw [hc']
  cases Recency.evicted s.collector.size s.collector.ids id with
  | none => exact ⟨_, rfl⟩
  | some last => exact ⟨_, rfl⟩

theorem touch_pos (hc : s.collector.Coherent)
    (h : s.touch io id = some s') :
    0 < s.collector.size ∨ s.collector.ids ≠ [] := by
  cases hup : s.collector.update id with
  | none =>
      rw [touch, hup] at h
      cases h
  | some r => exact LruCollector.update_defined hc hup

-- ============================================== write, then read back

/-- With all system calls succeeding a defined `write_chunk` returns
OK, and the file then holds the bytes. -/
theorem writeChunk_ok (hc : s.collector.Coherent) (hio : io.AllOk)
    {buffer : Bytes} {r : ErrorCode × ChunkStore}
    (h : s.writeChunk io id buffer = some r) :
    r.1 = .ok ∧ r.2.fileOf id = some buffer ∧ r.2.collector.Coherent
      ∧ id ∈ r.2.collector.ids := by
  have hdir : createBaseDir io = .ok := by
    rw [createBaseDir, hio.mkdir]
    rfl
  have hloop := writeLoop_of_progress buffer io.script hio.progress
  simp only [writeChunk, hdir, hio.openOk, hloop, ne_eq, not_true_eq_false,
    if_false, Bool.false_eq_true] at h
  cases ht : (s.setFile id (some buffer)).touch io id with
  | none =>
      rw [ht] at h
      cases h
  | some s' =>
      rw [ht] at h
      injection h with h
      subst h
      obtain ⟨hfile, hcoh, -, hmem⟩ := touch_spec (s := s.setFile id _) hc ht
      refine ⟨rfl, ?_, hcoh, hmem⟩
      show s'.fileOf id = _
      rw [hfile, fileOf_setFile, if_pos rfl]

/-- A store with room for a chunk writes without undefined
behaviour. -/
theorem writeChunk_defined (hc : s.collector.Coherent)
    (hpos : 0 < s.collector.size) (io : Io) (id : UInt32) (buffer : Bytes) :
    (s.writeChunk io id buffer).isSome := by
  unfold writeChunk
  split
  · rfl
  · split
    · rfl
    · obtain ⟨s', ht⟩ := touch_defined
        (s := s.setFile id (some (writeLoop io.script buffer).written))
        hc (Or.inl hpos) io id
      simp only [ht]
      split <;> rfl

/-- With all system calls succeeding a chunk whose file holds at most
`CHUNK_SIZE_BYTES` bytes reads back whole. -/
theorem readChunk_ok (hc : s.collector.Coherent) (hio : io.AllOk)
    {content : Bytes} (hfile : s.fileOf id = some content)
    (hlen : content.length ≤ chunkSizeBytes)
    (hpos : 0 < s.collector.size ∨ s.collector.ids ≠ []) :
    ∃ s', s.readChunk io id = some (.ok content, s')
      ∧ s'.collector.Coherent := by
  obtain ⟨s', ht⟩ := touch_defined hc hpos io id
  obtain ⟨hf, hgot, -⟩ := readLoop_of_progress chunkSizeBytes
    { rest := content, script := io.script } hio.progress chunkSizeBytes_pos
  refine ⟨s', ?_, (touch_spec hc ht).2.1⟩
  simp only [readChunk, hio.openOk, hfile, ht, hf, hgot,
    Bool.false_eq_true, if_false, List.take_of_length_le hlen]

end ChunkStore

end Distfs

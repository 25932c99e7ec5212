/-
`DataProvider::read` over any provider of whole chunks.

# The provider

`WholeChunks` is what is asked of it: in every state of an invariant, a
request within a chunk either fails and leaves `read_size` unset, or
delivers the slice of a whole chunk; which of the two depends on the id
alone. `ChunkProvider` is one, over a store and a network that together
deliver whole chunks (`Delivers`).

# The read

The loop goes from chunk to chunk, and its requests never leave one. So
`read_flat` can put the requests into the state of the provider, and
the invariant that the contract is about says that all of them fit. A
failure is found by the size or by the error code, whatever the unset
variable holds.
-/
import Distfs.Data.DataProvider
import Distfs.Data.ValidSlice

namespace Distfs

/-- `read_chunk` of a provider with states `τ`. -/
abbrev ReadChunk (τ : Type) :=
  τ → UInt32 → Nat → Nat → Option (ChunkReply × τ)

/-- Each id fails or has a whole chunk, as long as the provider is in a
state of the invariant. -/
structure WholeChunks {τ : Type} (rc : ReadChunk τ) (Inv : τ → Prop)
    (chunks : UInt32 → Option Bytes) : Prop where
  whole : ∀ id c, chunks id = some c → c.length = chunkSizeBytes
  missing : ∀ t id of len, Inv t → of + len ≤ chunkSizeBytes →
    chunks id = none →
    ∃ r t', rc t id of len = some (r, t') ∧ Inv t'
      ∧ r.err ≠ .ok ∧ r.readSize = none
  present : ∀ t id of len c, Inv t → of + len ≤ chunkSizeBytes →
    chunks id = some c →
    ∃ t', rc t id of len = some ({ err := .ok, readSize := some len
                                   bytes := (c.drop of).take len }, t')
      ∧ Inv t'

namespace DataProvider

variable {τ : Type}

/-- The loop of `read`, over any provider. -/
def readFromWith (rc : ReadChunk τ) (unset : Nat → Nat) (t : τ)
    (id : UInt32) (of : Offset) (length : Nat) :
    Option (ErrorCode × Bytes × τ) :=
  if _h : 0 < length then
    let len := min length (chunkSizeBytes - of.1)
    match rc t id of.1 len with
    | none => none
    | some (r, t) =>
        if r.readSize.getD (unset length) ≠ len then
          some (.internalError, r.bytes, t)
        else if r.err ≠ .ok then some (r.err, r.bytes, t)
        else
          match readFromWith rc unset t (id + 1) ⟨0, chunkSizeBytes_pos⟩
              (length - len) with
          | none => none
          | some (err, bytes, t) => some (err, r.bytes ++ bytes, t)
  else some (.ok, [], t)
termination_by length
decreasing_by
  have := of.2
  omega

/-- `read`, over any provider. -/
def readWith (rc : ReadChunk τ) (unset : Nat → Nat) (t : τ)
    (offset length : Nat) : Option (ErrorCode × Bytes × τ) :=
  readFromWith rc unset t (UInt32.ofNat (offset / chunkSizeBytes))
    ⟨offset % chunkSizeBytes, Nat.mod_lt _ chunkSizeBytes_pos⟩ length

/-- The read of the code is the one over `ChunkProvider`. -/
theorem read_eq_readWith {σ : Type} (ops : ChunkOps σ)
    (client : UInt32 → σ → ErrorCode × σ) (heap : Nat → Mem)
    (unset : Nat → Nat) (p : ChunkProvider σ) (offset length : Nat) :
    read ops client heap unset p offset length
      = readWith (fun p id of len => p.readChunk ops client heap id of len)
          unset p offset length := by
  have hfrom : ∀ (n : Nat) (p : ChunkProvider σ) (id : UInt32)
      (of : Offset), readFrom ops client heap unset p id of n
        = readFromWith (fun p id of len =>
            p.readChunk ops client heap id of len) unset p id of n := by
    intro n
    induction n using Nat.strong_induction_on with
    | _ n ih =>
        intro p id of
        rw [readFrom, readFromWith]
        split
        · next hpos =>
          have hof := of.2
          simp only [ih (n - min n (chunkSizeBytes - of.1)) (by omega)]
          cases p.readChunk ops client heap id of.1
            (min n (chunkSizeBytes - of.1)) with
          | none => rfl
          | some x =>
              obtain ⟨r, p'⟩ := x
              simp only
              cases readFromWith (fun p id of len =>
                p.readChunk ops client heap id of len) unset p' (id + 1)
                ⟨0, chunkSizeBytes_pos⟩ (n - min n (chunkSizeBytes - of.1))
                with
              | none => rfl
              | some y => rfl
        · rfl
  exact hfrom length p _ _

-- ======================================================== a flat read

/-- Every chunk touched by the range is there. -/
def Touched (chunks : UInt32 → Option Bytes) (offset length : Nat) : Prop :=
  ∀ i, i < length →
    (chunks (UInt32.ofNat ((offset + i) / chunkSizeBytes))).isSome = true

/-- Inside the first chunk the id stays and the offset counts up. -/
theorem first_chunk {a i k : Nat} (hi : i < k)
    (hk : k ≤ chunkSizeBytes - a % chunkSizeBytes) :
    (a + i) / chunkSizeBytes = a / chunkSizeBytes
      ∧ (a + i) % chunkSizeBytes = a % chunkSizeBytes + i := by
  have hbuffer := chunkSizeBytes_eq
  rw [hbuffer] at hk ⊢
  omega

/-- Up to the end of the chunk, or to the end of the range. -/
theorem next_chunk {a : Nat} :
    (a + (chunkSizeBytes - a % chunkSizeBytes)) / chunkSizeBytes
        = a / chunkSizeBytes + 1
      ∧ (a + (chunkSizeBytes - a % chunkSizeBytes)) % chunkSizeBytes = 0 := by
  have hbuffer := chunkSizeBytes_eq
  rw [hbuffer]
  omega

theorem Touched.split {chunks : UInt32 → Option Bytes} {a n k : Nat}
    (hk : k ≤ n) :
    Touched chunks a n ↔ Touched chunks a k ∧ Touched chunks (a + k) (n - k)
    := by
  constructor
  · intro h
    refine ⟨fun i hi => h i (by omega), fun i hi => ?_⟩
    rw [Nat.add_assoc]
    exact h (k + i) (by omega)
  · intro ⟨hfirst, hrest⟩ i hi
    rcases Nat.lt_or_ge i k with hlt | hge
    · exact hfirst i hlt
    · have := hrest (i - k) (by omega)
      rwa [Nat.add_assoc, Nat.add_sub_cancel' hge] at this

theorem Covers.append {chunks : UInt32 → Option Bytes} {a : Nat}
    {bs bs' : Bytes} (h : Covers chunks a bs)
    (h' : Covers chunks (a + bs.length) bs') :
    Covers chunks a (bs ++ bs') := by
  intro i hi
  rw [List.length_append] at hi
  rcases Nat.lt_or_ge i bs.length with hlt | hge
  · obtain ⟨c, hc, hbyte⟩ := h i hlt
    exact ⟨c, hc, by rw [hbyte, List.getElem?_append_left hlt]⟩
  · obtain ⟨c, hc, hbyte⟩ := h' (i - bs.length) (by omega)
    rw [Nat.add_assoc, Nat.add_sub_cancel' hge] at hc hbyte
    exact ⟨c, hc, by rw [hbyte, List.getElem?_append_right hge]⟩

section Flat

variable {rc : ReadChunk τ} {Inv : τ → Prop}
  {chunks : UInt32 → Option Bytes} (h : WholeChunks rc Inv chunks)
  (unset : Nat → Nat)

include h in
/-- A slice within the first chunk. -/
theorem covers_slice {a k : Nat} {c : Bytes}
    (hc : chunks (UInt32.ofNat (a / chunkSizeBytes)) = some c)
    (hk : k ≤ chunkSizeBytes - a % chunkSizeBytes) :
    ((c.drop (a % chunkSizeBytes)).take k).length = k
      ∧ Covers chunks a ((c.drop (a % chunkSizeBytes)).take k) := by
  have hlen : ((c.drop (a % chunkSizeBytes)).take k).length = k := by
    rw [List.length_take, List.length_drop, h.whole _ c hc]
    omega
  refine ⟨hlen, fun i hi => ?_⟩
  rw [hlen] at hi
  obtain ⟨hdiv, hmod⟩ := first_chunk hi hk
  rw [hdiv, hmod]
  exact ⟨c, hc, by rw [List.getElem?_take_of_lt hi, List.getElem?_drop]⟩

theorem readWith_zero (t : τ) (a : Nat) :
    readWith rc unset t a 0 = some (.ok, [], t) := by
  unfold readWith
  rw [readFromWith, dif_neg (Nat.lt_irrefl 0)]

include h in
/-- A turn that does not get its chunk ends the loop: the size differs,
or else the error code tells. -/
theorem readWith_missing {t : τ} {a n : Nat} (hinv : Inv t) (hpos : 0 < n)
    (hc : chunks (UInt32.ofNat (a / chunkSizeBytes)) = none) :
    ∃ err bytes t', readWith rc unset t a n = some (err, bytes, t')
      ∧ Inv t' ∧ err ≠ .ok := by
  have hmod := Nat.mod_lt a chunkSizeBytes_pos
  unfold readWith
  rw [readFromWith, dif_pos hpos]
  simp only
  generalize hk : min n (chunkSizeBytes - a % chunkSizeBytes) = k
  obtain ⟨r, t', hr, hinv', herr, hunset⟩ :=
    h.missing t _ (a % chunkSizeBytes) k hinv (by omega) hc
  simp only [hr, hunset, Option.getD_none]
  split
  · exact ⟨_, _, t', rfl, hinv', by simp⟩
  · exact ⟨_, _, t', rfl, hinv', herr⟩

include h in
/-- A turn that gets its chunk copies the slice, and the rest starts the
next chunk, if there is one. -/
theorem readWith_present {t : τ} {a n k : Nat} {c : Bytes} (hinv : Inv t)
    (hpos : 0 < n)
    (hk : min n (chunkSizeBytes - a % chunkSizeBytes) = k)
    (hc : chunks (UInt32.ofNat (a / chunkSizeBytes)) = some c) :
    ∃ t', Inv t' ∧ readWith rc unset t a n
      = (readWith rc unset t' (a + k) (n - k)).map fun x =>
        (x.1, (c.drop (a % chunkSizeBytes)).take k ++ x.2.1, x.2.2) := by
  have hmod := Nat.mod_lt a chunkSizeBytes_pos
  obtain ⟨t', hr, hinv'⟩ :=
    h.present t _ (a % chunkSizeBytes) k c hinv (by omega) hc
  refine ⟨t', hinv', ?_⟩
  conv_lhs => unfold readWith
  rw [readFromWith, dif_pos hpos]
  simp only [hk, hr, Option.getD_some, ne_eq, not_true_eq_false, if_false]
  rcases Nat.eq_zero_or_pos (n - k) with hzero | hmore
  · rw [hzero, readWith_zero, readFromWith, dif_neg (Nat.lt_irrefl 0)]
    rfl
  · have hkend : k = chunkSizeBytes - a % chunkSizeBytes := by omega
    obtain ⟨hdiv, hstart⟩ := @next_chunk a
    rw [← hkend] at hdiv hstart
    unfold readWith
    simp only [hdiv, hstart, UInt32.ofNat_add]
    rw [show UInt32.ofNat (a / chunkSizeBytes) + 1
      = UInt32.ofNat (a / chunkSizeBytes) + UInt32.ofNat 1 from rfl]
    cases readFromWith rc unset t'
      (UInt32.ofNat (a / chunkSizeBytes) + UInt32.ofNat 1)
      ⟨0, chunkSizeBytes_pos⟩ (n - k) with
    | none => rfl
    | some x => rfl

include h in
/-- The loop from the chunk of address `a` on. -/
theorem readWith_spec (n : Nat) :
    ∀ (t : τ) (a : Nat), Inv t → a + n ≤ 2 ^ 32 * chunkSizeBytes →
      ∃ err bytes t', readWith rc unset t a n = some (err, bytes, t')
        ∧ Inv t' ∧ (err = .ok ↔ Touched chunks a n)
        ∧ (err = .ok → bytes.length = n ∧ Covers chunks a bytes) := by
  induction n using Nat.strong_induction_on with
  | _ n ih =>
      intro t a hinv hend
      rcases Nat.eq_zero_or_pos n with rfl | hpos
      · exact ⟨.ok, [], t, readWith_zero unset t a, hinv,
          ⟨fun _ i hi => by omega, fun _ => rfl⟩,
          fun _ => ⟨rfl, fun i hi => by cases hi⟩⟩
      have hmod := Nat.mod_lt a chunkSizeBytes_pos
      cases hc : chunks (UInt32.ofNat (a / chunkSizeBytes)) with
      | none =>
          obtain ⟨err, bytes, t', hread, hinv', herr⟩ :=
            readWith_missing h unset hinv hpos hc
          have hnot : ¬ Touched chunks a n := fun htouched => by
            have hfirst := htouched 0 hpos
            rw [Nat.add_zero, hc] at hfirst
            cases hfirst
          exact ⟨err, bytes, t', hread, hinv', iff_of_false herr hnot,
            fun hok => absurd hok herr⟩
      | some c =>
          generalize hk : min n (chunkSizeBytes - a % chunkSizeBytes) = k
          obtain ⟨t', hinv', hread⟩ :=
            readWith_present h unset hinv hpos hk hc
          obtain ⟨hlen, hcovers⟩ := covers_slice h hc
            (show k ≤ chunkSizeBytes - a % chunkSizeBytes by omega)
          have hfirst : Touched chunks a k := by
            intro i hi
            rw [(first_chunk hi (by omega)).1, hc]
            rfl
          obtain ⟨err, bytes, t'', hrest, hinv'', hok, hbytes⟩ :=
            ih (n - k) (by omega) t' (a + k) hinv' (by omega)
          rw [hread, hrest]
          refine ⟨err, _, t'', rfl, hinv'', ?_, fun herr => ?_⟩
          · rw [hok, @Touched.split chunks a n k (by omega)]
            exact (and_iff_right hfirst).symm
          · obtain ⟨hlen', hcovers'⟩ := hbytes herr
            rw [← hlen] at hcovers'
            refine ⟨?_, hcovers.append hcovers'⟩
            show (_ ++ bytes).length = n
            rw [List.length_append]
            omega

end Flat

-- ======================================================= the requests

/-- The provider, with the requests made to it. -/
def logged (rc : ReadChunk τ) : ReadChunk (τ × List (UInt32 × Nat × Nat)) :=
  fun s id of len =>
    (rc s.1 id of len).map fun r => (r.1, r.2, s.2 ++ [(id, of, len)])

/-- Keeping the requests changes nothing else. -/
theorem readWith_logged (rc : ReadChunk τ) (unset : Nat → Nat) (t : τ)
    (log : List (UInt32 × Nat × Nat)) (offset length : Nat) :
    (readWith (logged rc) unset (t, log) offset length).map
        (fun x => (x.1, x.2.1, x.2.2.1))
      = readWith rc unset t offset length := by
  have hfrom : ∀ (n : Nat) (t : τ) (log : List (UInt32 × Nat × Nat))
      (id : UInt32) (of : Offset),
      (readFromWith (logged rc) unset (t, log) id of n).map
          (fun x => (x.1, x.2.1, x.2.2.1))
        = readFromWith rc unset t id of n := by
    intro n
    induction n using Nat.strong_induction_on with
    | _ n ih =>
        intro t log id of
        have hof := of.2
        rw [readFromWith, readFromWith]
        split
        · next hpos =>
          simp only [logged]
          cases rc t id of.1 (min n (chunkSizeBytes - of.1)) with
          | none => rfl
          | some x =>
              obtain ⟨r, t'⟩ := x
              simp only [Option.map_some]
              rw [← ih (n - min n (chunkSizeBytes - of.1)) (by omega) t'
                (log ++ [(id, of.1, min n (chunkSizeBytes - of.1))])
                (id + 1) ⟨0, chunkSizeBytes_pos⟩]
              split
              · rfl
              · split
                · rfl
                · cases readFromWith (logged rc) unset (t', log
                    ++ [(id, of.1, min n (chunkSizeBytes - of.1))]) (id + 1)
                    ⟨0, chunkSizeBytes_pos⟩
                    (n - min n (chunkSizeBytes - of.1)) with
                  | none => rfl
                  | some y => rfl
        · rfl
  exact hfrom length t log _ _

/-- It is a provider of the same chunks, and all requests that got into a
state of the invariant are within a chunk. -/
theorem wholeChunks_logged {rc : ReadChunk τ} {Inv : τ → Prop}
    {chunks : UInt32 → Option Bytes} (h : WholeChunks rc Inv chunks) :
    WholeChunks (logged rc) (fun s => Inv s.1
      ∧ ∀ q ∈ s.2, q.2.1 + q.2.2 ≤ chunkSizeBytes) chunks := by
  have hlog : ∀ (log : List (UInt32 × Nat × Nat)) (id : UInt32)
      (of len : Nat), (∀ q ∈ log, q.2.1 + q.2.2 ≤ chunkSizeBytes) →
      of + len ≤ chunkSizeBytes →
      ∀ q ∈ log ++ [(id, of, len)], q.2.1 + q.2.2 ≤ chunkSizeBytes := by
    intro log id of len hlog hfit q hq
    rcases List.mem_append.1 hq with hq | hq
    · exact hlog q hq
    · rw [List.mem_singleton.1 hq]
      exact hfit
  refine ⟨h.whole, fun s id of len hs hfit hc => ?_,
    fun s id of len c hs hfit hc => ?_⟩
  · obtain ⟨r, t', hr, hinv, herr, hunset⟩ :=
      h.missing s.1 id of len hs.1 hfit hc
    refine ⟨r, (t', s.2 ++ [(id, of, len)]), ?_,
      ⟨hinv, hlog s.2 id of len hs.2 hfit⟩, herr, hunset⟩
    rw [logged, hr]
    rfl
  · obtain ⟨t', hr, hinv⟩ := h.present s.1 id of len c hs.1 hfit hc
    refine ⟨(t', s.2 ++ [(id, of, len)]), ?_,
      ⟨hinv, hlog s.2 id of len hs.2 hfit⟩⟩
    rw [logged, hr]
    rfl

/-- `DataProvider::read` is a flat read. Over a provider of whole chunks
it comes to an end, with OK if and only if every chunk touched is there,
and then with the bytes of the range. All its requests are within a
chunk, and what the unset variable holds makes no difference. -/
theorem read_flat (rc : ReadChunk τ) (Inv : τ → Prop)
    (chunks : UInt32 → Option Bytes) (h : WholeChunks rc Inv chunks)
    (unset : Nat → Nat) (t : τ) (hinv : Inv t) (offset length : Nat)
    (hend : offset + length ≤ 2 ^ 32 * chunkSizeBytes) :
    ∃ err bytes t' log,
      readWith rc unset t offset length = some (err, bytes, t')
        ∧ readWith (logged rc) unset (t, []) offset length
          = some (err, bytes, t', log)
        ∧ (∀ q ∈ log, q.2.1 + q.2.2 ≤ chunkSizeBytes)
        ∧ (err = .ok ↔ ∀ i, i < length →
          (chunks (UInt32.ofNat ((offset + i) / chunkSizeBytes))).isSome
            = true)
        ∧ (err = .ok → bytes.length = length ∧ ∀ i, i < length → ∃ chunk,
          chunks (UInt32.ofNat ((offset + i) / chunkSizeBytes)) = some chunk
            ∧ bytes[i]? = chunk[(offset + i) % chunkSizeBytes]?) := by
  obtain ⟨err, bytes, s, hread, hinv', hok, hbytes⟩ := readWith_spec
    (wholeChunks_logged h) unset length (t, []) offset
    ⟨hinv, fun q hq => absurd hq List.not_mem_nil⟩ hend
  have hplain := readWith_logged rc unset t [] offset length
  rw [hread] at hplain
  refine ⟨err, bytes, s.1, s.2, hplain.symm, hread, hinv'.2, hok,
    fun herr => ?_⟩
  obtain ⟨hlen, hcovers⟩ := hbytes herr
  refine ⟨hlen, fun i hi => ?_⟩
  obtain ⟨c, hc, hbyte⟩ := hcovers i (by omega)
  exact ⟨c, hc, hbyte.symm⟩

end DataProvider

-- ========================================== the provider of the program

namespace ChunkProvider

variable {σ : Type} {ops : ChunkOps σ}
  {client : UInt32 → σ → ErrorCode × σ} {ready : σ → Prop}
  {chunks : UInt32 → Option Bytes}

/-- The store and the network deliver these chunks and fail for the other
ids. -/
structure Delivers (ops : ChunkOps σ) (client : UInt32 → σ → ErrorCode × σ)
    (ready : σ → Prop) (chunks : UInt32 → Option Bytes) : Prop where
  whole : ∀ id c, chunks id = some c → c.length = chunkSizeBytes
  found : ∀ s id c, ready s → chunks id = some c →
    ∃ s', fetch ops client s id = some (.ok c, s') ∧ ready s'
  failed : ∀ s id, ready s → chunks id = none →
    ∃ err s', fetch ops client s id = some (.error err, s') ∧ err ≠ .ok
      ∧ ready s'

/-- What the cache has is valid. -/
structure Caching (ready : σ → Prop) (chunks : UInt32 → Option Bytes)
    (p : ChunkProvider σ) : Prop where
  ready : ready p.store
  cached : ∀ id e, p.entries id = some e → 0 < e.len →
    ∃ c, chunks id = some c ∧ e.len = c.length
      ∧ e.data.read 0 c.length = c
  collector : p.collector.Coherent
  size : 0 < p.collector.size

theorem caching_new {store : σ} {cacheSize : Nat} (hready : ready store)
    (hsize : 0 < cacheSize) : Caching ready chunks (new store cacheSize) :=
  ⟨hready, fun id e he => (by cases he), LruCollector.coherent_new cacheSize,
    hsize⟩

section Caching

variable {p : ChunkProvider σ}

/-- Entries of the cache that are dropped or invalid do no harm. -/
theorem Caching.entries (h : Caching ready chunks p) {p' : ChunkProvider σ}
    (hready : ready p'.store)
    (hentries : ∀ id e, p'.entries id = some e → 0 < e.len →
      p.entries id = some e ∨ ∃ c, chunks id = some c ∧ e.len = c.length
        ∧ e.data.read 0 c.length = c)
    (hc : p'.collector.Coherent)
    (hsize : p'.collector.size = p.collector.size) :
    Caching ready chunks p' := by
  refine ⟨hready, fun id e he hpos => ?_, hc, by rw [hsize]; exact h.size⟩
  rcases hentries id e he hpos with he | hvalid
  · exact h.cached id e he hpos
  · exact hvalid

theorem Caching.touch (h : Caching ready chunks p) (id : UInt32) :
    ∃ p', p.touch id = some p' ∧ Caching ready chunks p' := by
  obtain ⟨c', hupdate, hcoherent, hsize, -⟩ :=
    LruCollector.update_spec h.collector id (.inl h.size)
  unfold ChunkProvider.touch
  rw [hupdate]
  cases Recency.evicted p.collector.size p.collector.ids id with
  | none =>
      exact ⟨_, rfl, h.entries h.ready (fun i e he _ => .inl he) hcoherent
        hsize⟩
  | some gone =>
      refine ⟨_, rfl, h.entries h.ready (fun i e he _ => .inl ?_) hcoherent
        hsize⟩
      have he' : (if i = gone then none else p.entries i) = some e := he
      split at he'
      · cases he'
      · exact he'

/-- A chunk that is delivered is loaded. -/
theorem Caching.load_found (h : Caching ready chunks p) (heap : Nat → Mem)
    (hd : Delivers ops client ready chunks) {id : UInt32} {c : Bytes}
    (hc : chunks id = some c) {offset len : Nat}
    (hfit : offset + len ≤ chunkSizeBytes) :
    ∃ p', load ops client heap p id offset len
        = some ({ err := .ok, readSize := some len
                  bytes := (c.drop offset).take len }, p')
      ∧ Caching ready chunks p' := by
  obtain ⟨s', hfetch, hready⟩ := hd.found p.store id c h.ready hc
  have hdata : ((heap p.allocs).write 0 c).read 0 c.length = c :=
    Mem.read_write_self _ 0 c
  have hcaching : Caching ready chunks { p.setEntry id (some
      { data := (heap p.allocs).write 0 c, len := c.length }) with
      store := s', allocs := p.allocs + 1 } := by
    refine h.entries hready (fun i e he hpos => ?_) h.collector rfl
    have he' : (if i = id then some _ else p.entries i) = some e := he
    split at he'
    · next hi =>
      rw [Option.some.injEq] at he'
      rw [hi, ← he']
      exact .inr ⟨c, hc, rfl, hdata⟩
    · exact .inl he'
  obtain ⟨p', htouch, hcaching'⟩ := hcaching.touch id
  refine ⟨p', ?_, hcaching'⟩
  unfold load
  simp only [hfetch, htouch]
  rw [copyOut_eq rfl hdata (hd.whole id c hc) hfit]

/-- A chunk that is not delivered leaves no entry. -/
theorem Caching.load_failed (h : Caching ready chunks p) (heap : Nat → Mem)
    (hd : Delivers ops client ready chunks) {id : UInt32}
    (hc : chunks id = none) (offset len : Nat) :
    ∃ r p', load ops client heap p id offset len = some (r, p')
      ∧ Caching ready chunks p' ∧ r.err ≠ .ok ∧ r.readSize = none := by
  obtain ⟨err, s', hfetch, herr, hready⟩ := hd.failed p.store id h.ready hc
  unfold load
  simp only [hfetch]
  refine ⟨_, _, rfl, h.entries hready (fun i e he _ => .inl ?_) h.collector
    rfl, herr, rfl⟩
  have he' : (if i = id then none else p.entries i) = some e := he
  split at he'
  · cases he'
  · exact he'

/-- `ChunkProvider` is a provider of the whole chunks that store and
network deliver. -/
theorem wholeChunks_readChunk (heap : Nat → Mem)
    (hd : Delivers ops client ready chunks) :
    WholeChunks (fun p id of len => readChunk ops client heap p id of len)
      (Caching ready chunks) chunks := by
  have hbuffer := chunkSizeBytes_eq
  refine ⟨hd.whole, fun p id of len h hfit hc => ?_,
    fun p id of len c h hfit hc => ?_⟩
  · unfold readChunk
    rw [uint32_of_lt (by omega), if_neg (by omega)]
    cases he : p.entries id with
    | none => exact h.load_failed heap hd hc of len
    | some e =>
        simp only
        split
        · next hpos =>
          obtain ⟨c, hc', -⟩ := h.cached id e he hpos
          rw [hc] at hc'
          cases hc'
        · exact h.load_failed heap hd hc of len
  · unfold readChunk
    rw [uint32_of_lt (by omega), if_neg (by omega)]
    cases he : p.entries id with
    | none => exact h.load_found heap hd hc hfit
    | some e =>
        simp only
        split
        · next hpos =>
          obtain ⟨c', hc', hlen, hdata⟩ := h.cached id e he hpos
          rw [hc, Option.some.injEq] at hc'
          subst hc'
          obtain ⟨p', htouch, hcaching'⟩ := h.touch id
          refine ⟨p', ?_, hcaching'⟩
          rw [htouch, copyOut_eq hlen hdata (hd.whole id c hc) hfit]
        · exact h.load_found heap hd hc hfit

end Caching

/-- A store in memory delivers its chunks, with nothing behind it. -/
theorem delivers_memory {s : MemoryStore}
    (hwhole : ∀ id c, s.chunks id = some c → c.length = chunkSizeBytes) :
    Delivers MemoryStore.ops (fun _ t => (.notFound, t)) (· = s) s.chunks := by
  refine ⟨hwhole, fun t id c ht hc => ⟨s, ?_, rfl⟩,
    fun t id ht hc => ⟨.notFound, s, ?_, by simp, rfl⟩⟩
  · subst ht
    unfold fetch MemoryStore.ops
    simp only [hc]
  · subst ht
    unfold fetch MemoryStore.ops
    simp only [hc]

end ChunkProvider

/-- A store with chunk 0 and no other one. -/
def oneChunk : MemoryStore :=
  { chunks := fun id =>
      if id = 0 then some (List.replicate chunkSizeBytes 7) else none
    ids := {0} }

theorem read_flat_one_chunk :
    (∃ bytes p', DataProvider.read MemoryStore.ops
        (fun _ s => (.notFound, s)) (fun _ _ => 0) (fun _ => 0)
        (.new oneChunk 25) 1 2 = some (.ok, bytes, p') ∧ bytes.length = 2)
      ∧ ∃ err bytes p', DataProvider.read MemoryStore.ops
          (fun _ s => (.notFound, s)) (fun _ _ => 0)
          (fun left => min left chunkSizeBytes) (.new oneChunk 25)
          (chunkSizeBytes - 1) 3 = some (err, bytes, p') ∧ err ≠ .ok := by
  have hbuffer := chunkSizeBytes_eq
  have hwhole : ∀ id c, oneChunk.chunks id = some c →
      c.length = chunkSizeBytes := by
    intro id c hc
    unfold oneChunk at hc
    simp only at hc
    split at hc
    · cases hc
      exact List.length_replicate
    · cases hc
  have hread := fun unset => DataProvider.read_flat _ _ _
    (ChunkProvider.wholeChunks_readChunk (fun _ _ => 0)
      (ChunkProvider.delivers_memory hwhole)) unset (.new oneChunk 25)
    (ChunkProvider.caching_new rfl (by omega))
  refine ⟨?_, ?_⟩
  · obtain ⟨err, bytes, p', log, hread, -, -, hok, hbytes⟩ :=
      hread (fun _ => 0) 1 2 (by omega)
    have herr : err = .ok := hok.2 fun i hi => by
      rw [show (1 + i) / chunkSizeBytes = 0 by rw [hbuffer]; omega]
      rfl
    subst herr
    rw [DataProvider.read_eq_readWith]
    exact ⟨bytes, p', hread, (hbytes rfl).1⟩
  · obtain ⟨err, bytes, p', log, hread, -, -, hok, -⟩ :=
      hread (fun left => min left chunkSizeBytes) (chunkSizeBytes - 1) 3
        (by omega)
    rw [DataProvider.read_eq_readWith]
    refine ⟨err, bytes, p', hread, fun herr => ?_⟩
    have hone := hok.1 herr 1 (by omega)
    rw [show (chunkSizeBytes - 1 + 1) / chunkSizeBytes = 1 by
      rw [hbuffer]] at hone
    cases hone

end Distfs

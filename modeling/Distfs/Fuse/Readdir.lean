/-
Reading a directory in pages (`distfs_readdir`).

# One call

FUSE hands over where to resume and a filler. `feed` is what then should
happen: the entries from there on are offered in order, each with the
number of the next one as its cookie, until the filler is full.
`distfsReaddir_feed` says that this is what happens, for every filler.

# All calls

A caller keeps what its buffers take and resumes at the last cookie it
has seen (`resume`). The counter that makes the cookies is also counted
up for the entry that is turned down; but it starts anew with each call,
so nothing of it is left (`page_take`): after any number of calls the
caller has the first `k` entries, and only a call at the end brings
nothing.
-/
import Distfs.Fuse.FuseMain
import Distfs.Meta.Lookup

namespace Distfs

namespace Fuse

open MetaFileSystem

/-- What `filler` is called with. -/
structure DirEntry where
  name : Nat
  stat : StatReply
  cookie : Int
  deriving DecidableEq

/-- Entry `i` of the directory at `off`. -/
def dirEntry (m : Mem) (off i : Nat) : DirEntry :=
  { name := Entry.nameOffset m (Node.dataOffset m off) i
    stat := getStat m (Entry.dataOffset m (Node.dataOffset m off) i)
    cookie := i + 1 }

/-- The entries of the directory, as stored. -/
def listing (m : Mem) (off : Nat) : List DirEntry :=
  (List.range (Node.length m off)).map (dirEntry m off)

theorem length_listing (m : Mem) (off : Nat) :
    (listing m off).length = Node.length m off := by
  rw [listing, List.length_map, List.length_range]

/-- The entries from index `k` on. -/
theorem drop_listing (m : Mem) (off k : Nat) :
    (listing m off).drop k
      = (List.range' k (Node.length m off - k)).map (dirEntry m off) := by
  rw [listing, ← List.map_drop, List.range_eq_range', List.drop_range',
    Nat.zero_add, Nat.mul_one]

-- ============================================================ one call

/-- Offer the entries until the filler is full. -/
def feed {φ : Type} (filler : φ → Nat → StatReply → Int → Bool × φ) :
    φ → List DirEntry → φ
  | s, [] => s
  | s, e :: es =>
      let r := filler s e.name e.stat e.cookie
      if r.1 then r.2 else feed filler r.2 es

section Call

variable {m : Mem} {path : Bytes} {off : Nat}

/-- The loop of `get_dir` with the callback of `distfs_readdir`. -/
theorem readEntries_feed {φ : Type}
    (filler : φ → Nat → StatReply → Int → Bool × φ) (k : Nat) :
    ∀ (i : Nat) (s : φ),
      (readEntries (dirReader filler) m (Node.dataOffset m off) k i
          (s, (i : Int))).1
        = feed filler s ((List.range' i k).map (dirEntry m off)) := by
  induction k with
  | zero => exact fun i s => rfl
  | succ k ih =>
      intro i s
      rw [readEntries, List.range'_succ, List.map_cons, feed]
      by_cases hfull : (dirReader filler (s, (i : Int))
          (Entry.nameOffset m (Node.dataOffset m off) i)
          (getStat m (Entry.dataOffset m (Node.dataOffset m off) i))).1 = true
      · rw [if_pos hfull]
        exact (if_pos hfull).symm
      · rw [if_neg hfull]
        exact (ih (i + 1) _).trans (if_neg hfull).symm

/-- A call offers the entries from its offset on. -/
theorem distfsReaddir_feed (hpath : getNodeOffset m path = some (.ok, off))
    (hdir : sIsDir (Node.mode m off) = true)
    (hlen : Node.length m off < 2 ^ 32) {φ : Type}
    (filler : φ → Nat → StatReply → Int → Bool × φ) (s : φ) {k : Nat}
    (hk : k ≤ Node.length m off) :
    distfsReaddir m path filler s k
      = some (0, feed filler s ((listing m off).drop k)) := by
  have hstart : uint32 (toUint64 (k : Int)) = k := by
    unfold uint32 toUint64
    omega
  have hfeed := @readEntries_feed m off φ filler (Node.length m off - k) k s
  rw [drop_listing, ← hfeed]
  unfold distfsReaddir getDir
  rw [hpath, hstart]
  simp only
  rw [hdir]
  rfl

end Call

-- ========================================================== all calls

/-- A buffer that takes an entry if it fits what it has taken so far. -/
def intoBuffer (fits : List DirEntry → DirEntry → Bool)
    (taken : List DirEntry) (name : Nat) (stat : StatReply) (cookie : Int) :
    Bool × List DirEntry :=
  let e : DirEntry := { name := name, stat := stat, cookie := cookie }
  if fits taken e then (false, taken ++ [e]) else (true, taken)

/-- The cookie of the last entry accepted, zero at first. -/
def resume (accepted : List DirEntry) : Int :=
  match accepted.getLast? with
  | none => 0
  | some e => e.cookie

/-- One call with a buffer, and what has been accepted after it. -/
def page (m : Mem) (path : Bytes) (accepted : List DirEntry)
    (fits : List DirEntry → DirEntry → Bool) : Option (List DirEntry) :=
  match distfsReaddir m path (intoBuffer fits) [] (resume accepted) with
  | some (0, taken) => some (accepted ++ taken)
  | _ => none

/-- A call for each of the buffers. -/
def pages (m : Mem) (path : Bytes) (accepted : List DirEntry) :
    List (List DirEntry → DirEntry → Bool) → Option (List DirEntry)
  | [] => some accepted
  | fits :: buffers =>
      match page m path accepted fits with
      | none => none
      | some accepted => pages m path accepted buffers

/-- A buffer takes the first of the entries, and if it is empty at least
one of them. -/
theorem feed_intoBuffer (fits : List DirEntry → DirEntry → Bool)
    (es : List DirEntry) : ∀ taken, ∃ j, j ≤ es.length
      ∧ feed (intoBuffer fits) taken es = taken ++ es.take j
      ∧ (taken = [] → (∀ e, fits [] e = true) → es ≠ [] → 0 < j) := by
  induction es with
  | nil =>
      intro taken
      exact ⟨0, Nat.le_refl 0, (List.append_nil taken).symm,
        fun _ _ hne => absurd rfl hne⟩
  | cons e es ih =>
      intro taken
      rw [feed, intoBuffer]
      by_cases hfits : fits taken e = true
      · obtain ⟨j, hj, hfeed, -⟩ := ih (taken ++ [e])
        refine ⟨j + 1, Nat.succ_le_succ hj, ?_, fun _ _ _ => Nat.succ_pos j⟩
        rw [if_pos hfits, if_neg (by simp), hfeed, List.append_assoc,
          List.take_succ_cons]
        rfl
      · refine ⟨0, Nat.zero_le _, ?_, fun htaken hempty _ => ?_⟩
        · rw [if_neg hfits, if_pos rfl, List.take_zero, List.append_nil]
        · rw [htaken] at hfits
          exact absurd (hempty e) hfits

section Pages

variable {m : Mem} {path : Bytes} {off : Nat}

/-- After the first `k` entries the caller resumes at index `k`. -/
theorem resume_take {k : Nat} (hk : k ≤ Node.length m off) :
    resume ((listing m off).take k) = k := by
  rcases Nat.eq_zero_or_pos k with rfl | hpos
  · rfl
  · have hlast : ((listing m off).take k).getLast?
        = some (dirEntry m off (k - 1)) := by
      rw [List.getLast?_eq_getElem?, List.length_take, length_listing,
        Nat.min_eq_left hk, List.getElem?_take_of_lt (by omega), listing,
        List.getElem?_map, List.getElem?_range (by omega)]
      rfl
    rw [resume, hlast]
    show ((k - 1 : Nat) : Int) + 1 = k
    omega

variable (hpath : getNodeOffset m path = some (.ok, off))
  (hdir : sIsDir (Node.mode m off) = true)
  (hlen : Node.length m off < 2 ^ 32)

include hpath hdir hlen in
/-- One more call: from the first `k` entries to the first `k'`, and on
as long as there are entries. -/
theorem page_take {fits : List DirEntry → DirEntry → Bool}
    (hfits : ∀ e, fits [] e = true) {k : Nat} (hk : k ≤ Node.length m off) :
    ∃ k', k ≤ k' ∧ k' ≤ Node.length m off
      ∧ page m path ((listing m off).take k) fits
        = some ((listing m off).take k')
      ∧ (k < Node.length m off → k < k') := by
  have hrest : ((listing m off).drop k).length = Node.length m off - k := by
    rw [List.length_drop, length_listing]
  obtain ⟨j, hj, hfeed, hsome⟩ :=
    feed_intoBuffer fits ((listing m off).drop k) []
  rw [hrest] at hj
  refine ⟨k + j, by omega, by omega, ?_, fun hmore => ?_⟩
  · unfold page
    rw [resume_take hk, distfsReaddir_feed hpath hdir hlen _ _ hk, hfeed,
      List.nil_append]
    simp only
    rw [List.take_add]
  · have hne : (listing m off).drop k ≠ [] := fun hnil => by
      rw [hnil, List.length_nil] at hrest
      omega
    have := hsome rfl hfits hne
    omega

include hpath hdir hlen in
/-- Any number of calls. -/
theorem pages_from (buffers : List (List DirEntry → DirEntry → Bool)) :
    ∀ k, k ≤ Node.length m off →
      (∀ fits ∈ buffers, ∀ e, fits [] e = true) →
      ∃ k', k ≤ k' ∧ k' ≤ Node.length m off
        ∧ pages m path ((listing m off).take k) buffers
          = some ((listing m off).take k')
        ∧ min (k + buffers.length) (Node.length m off) ≤ k' := by
  induction buffers with
  | nil =>
      intro k hk _
      exact ⟨k, Nat.le_refl k, hk, rfl, by rw [List.length_nil]; omega⟩
  | cons fits buffers ih =>
      intro k hk hfits
      obtain ⟨k₁, hle₁, hk₁, hpage, hmore⟩ := page_take hpath hdir hlen
        (hfits fits List.mem_cons_self) hk
      obtain ⟨k₂, hle₂, hk₂, hpages, hmin⟩ := ih k₁ hk₁ fun f hf =>
        hfits f (List.mem_cons_of_mem _ hf)
      refine ⟨k₂, by omega, hk₂, ?_, ?_⟩
      · rw [pages, hpage]
        exact hpages
      · rw [List.length_cons]
        omega

end Pages

/-- Directory paging loses and repeats nothing. However much each of the
buffers takes, the caller has the first entries, at least one more for
each call; if a further call brings nothing, it has all of them. And a
call at any offset offers the entries from there on. -/
theorem readdir_pages (m : Mem) (path : Bytes) (off : Nat)
    (hpath : getNodeOffset m path = some (.ok, off))
    (hdir : sIsDir (Node.mode m off) = true)
    (hlen : Node.length m off < 2 ^ 32) :
    (∀ buffers : List (List DirEntry → DirEntry → Bool),
      (∀ fits ∈ buffers, ∀ e, fits [] e = true) →
      ∃ k, k ≤ Node.length m off
        ∧ pages m path [] buffers = some ((listing m off).take k)
        ∧ min buffers.length (Node.length m off) ≤ k
        ∧ ∀ more, (∀ e, more [] e = true) →
          page m path ((listing m off).take k) more
            = some ((listing m off).take k) →
          (listing m off).take k = listing m off)
      ∧ ∀ (φ : Type) (filler : φ → Nat → StatReply → Int → Bool × φ) (s : φ)
          (k : Nat), k ≤ Node.length m off →
        distfsReaddir m path filler s k
          = some (0, feed filler s ((listing m off).drop k)) := by
  refine ⟨fun buffers hfits => ?_, fun φ filler s k hk =>
    distfsReaddir_feed hpath hdir hlen filler s hk⟩
  obtain ⟨k, -, hk, hpages, hmin⟩ :=
    pages_from hpath hdir hlen buffers 0 (Nat.zero_le _) hfits
  rw [Nat.zero_add] at hmin
  refine ⟨k, hk, hpages, hmin, fun more hmore hnothing => ?_⟩
  obtain ⟨k', -, hk', hpage, hgrows⟩ := page_take hpath hdir hlen hmore hk
  rw [hpage, Option.some.injEq] at hnothing
  have hsame := congrArg List.length hnothing
  rw [List.length_take, List.length_take, length_listing] at hsame
  refine List.take_of_length_le ?_
  rw [length_listing]
  by_contra hless
  have := hgrows (by omega)
  omega

/-- A directory with three empty files, listed in no order. -/
def threeFiles : SourceTree :=
  .node (statOf 0x41ED) [] []
    [([104], some 0x81A4, .node (statOf 0x81A4) [] [] []),
      ([102], some 0x81A4, .node (statOf 0x81A4) [] [] []),
      ([103], some 0x81A4, .node (statOf 0x81A4) [] [] [])]

/-- Two buffers for one entry and one for two bring all of them. -/
theorem readdir_pages_three_files : ∃ b,
    MetaFSBuilder.scanDfs (fun _ _ => 0) threeFiles (.start fun _ _ => 0)
        = some (b, usizeSize)
      ∧ Node.length b.data usizeSize = 3
      ∧ pages b.data [47] [] [fun es _ => es.length < 1,
          fun es _ => es.length < 1, fun es _ => es.length < 2]
        = some (listing b.data usizeSize) := by
  have hsup : threeFiles.supported = true := by decide
  obtain ⟨b, hscan⟩ := @MetaFSBuilder.scanDfs_small (fun _ _ => 0)
    threeFiles hsup (by decide)
  obtain ⟨hat, -⟩ := at_of_scanDfs hscan
  have hisDir : threeFiles.isDir = true := by decide
  obtain ⟨⟨mode, hrecords⟩, -⟩ := hat.records hisDir
  have hlength : Node.length b.data usizeSize = 3 := by
    rw [hrecords.node.length]
    rfl
  obtain ⟨hpages, -⟩ := readdir_pages b.data [47] usizeSize rfl
    ((hat.kind hsup).1.trans hisDir) (by omega)
  obtain ⟨k, -, hk, hmin, -⟩ := hpages [fun es _ => es.length < 1,
    fun es _ => es.length < 1, fun es _ => es.length < 2] (by simp)
  refine ⟨b, hscan, hlength, hk.trans (congrArg some ?_)⟩
  refine List.take_of_length_le ?_
  rw [length_listing]
  rw [hlength] at hmin ⊢
  exact hmin

end Fuse

end Distfs

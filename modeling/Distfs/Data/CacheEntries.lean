/-
The entries of the chunk cache under concurrency.

Two facts hold in every state of every run of `SharedProvider`:

- `Held`: each entry is for one id, and its mutex is held by the thread
  its owner says;
- `Valid`: an entry that no thread is loading is empty or has its whole
  chunk. It is not empty if it is in the map, or is about to be read.

A step changes one thread, and is one of three kinds: it leaves the
entries alone (`move`), fills or empties the one it is loading (`fill`), or
makes one (`insert`). A thread that gives up an empty entry for a new one
does the first and then the last (`insertEntry_goto`).
-/
import Distfs.Data.SharedProvider

namespace Distfs

namespace Pc

/-- The entry a thread holds on to, and the id it is for. -/
@[simp] def ref : Pc → Option (UInt32 × Nat)
  | .wait c e | .check c e | .replace c e | .load c e | .fetch c e
  | .reload c e | .release c e | .copy c e _ | .update c (.copy e)
  | .evict c (.copy e) _ | .fail c e _ => some (c.id, e)
  | _ => none

/-- The entry whose mutex a thread holds. -/
@[simp] def owning : Pc → Option Nat
  | .check _ e | .replace _ e | .load _ e | .fetch _ e | .reload _ e
  | .release _ e | .fail _ e _ => some e
  | _ => none

/-- The entry a thread is loading, or has failed to load. -/
@[simp] def filling : Pc → Option Nat
  | .load _ e | .fetch _ e | .reload _ e | .fail _ e _ => some e
  | _ => none

/-- The entry a thread is about to read. -/
@[simp] def reading : Pc → Option Nat
  | .release _ e | .copy _ e _ | .update _ (.copy e)
  | .evict _ (.copy e) _ => some e
  | _ => none

/-- Who holds the mutex of an entry has the entry. -/
theorem ref_of_owning {pc : Pc} {e : Nat} (h : pc.owning = some e) :
    ∃ id, pc.ref = some (id, e) := by
  cases pc with
  | check c e' | replace c e' | load c e' | fetch c e' | reload c e'
  | release c e' | fail c e' err =>
      cases h
      exact ⟨c.id, rfl⟩
  | _ => cases h

/-- Who fills an entry holds its mutex. -/
theorem owning_of_filling {pc : Pc} {e : Nat} (h : pc.filling = some e) :
    pc.owning = some e := by
  cases pc with
  | load c e' | fetch c e' | reload c e' | fail c e' err => exact h
  | _ => cases h

/-- Who reads an entry has it. -/
theorem ref_of_reading {pc : Pc} {e : Nat} (h : pc.reading = some e) :
    ∃ id, pc.ref = some (id, e) := by
  cases pc with
  | release c e' | copy c e' hit =>
      cases h
      exact ⟨c.id, rfl⟩
  | update c rest | evict c rest gone =>
      cases rest with
      | copy e' =>
          cases h
          exact ⟨c.id, rfl⟩
      | reply r => cases h
  | _ => cases h

-- A thread that is in no call has no entry.

/-- A thread outside of a call holds no mutex. -/
theorem owning_of_resting {pc : Pc} (h : pc.resting) : pc.owning = none := by
  rcases resting_cases h with rfl | ⟨c, r, rfl⟩ <;> rfl

/-- A thread outside of a call fills no entry. -/
theorem filling_of_resting {pc : Pc} (h : pc.resting) :
    pc.filling = none := by
  rcases resting_cases h with rfl | ⟨c, r, rfl⟩ <;> rfl

-- Whatever a load or a fetch returns, the thread keeps its entry, and the
-- mutex of it.

variable {c : ReadCall} {e : Nat} {err : ErrorCode} {rest : Rest}
  {gone : UInt32}

theorem ref_loaded : (loaded c e err).ref = some (c.id, e) := by
  unfold loaded
  split_ifs <;> rfl

theorem owning_loaded : (loaded c e err).owning = some e := by
  unfold loaded
  split_ifs <;> rfl

theorem ref_fetched : (fetched c e err).ref = some (c.id, e) := by
  unfold fetched
  split_ifs <;> rfl

theorem owning_fetched : (fetched c e err).owning = some e := by
  unfold fetched
  split_ifs <;> rfl

theorem filling_fetched : (fetched c e err).filling = some e := by
  unfold fetched
  split_ifs <;> rfl

theorem reading_fetched : (fetched c e err).reading = none := by
  unfold fetched
  split_ifs <;> rfl

theorem ref_reloaded : (reloaded c e err).ref = some (c.id, e) := by
  unfold reloaded
  split_ifs <;> rfl

theorem owning_reloaded : (reloaded c e err).owning = some e := by
  unfold reloaded
  split_ifs <;> rfl

-- While a thread updates the collector, and after it, it has the entry it
-- had before.

theorem ref_evict : (evict c rest gone).ref = (update c rest).ref := by
  cases rest <;> rfl

theorem reading_evict :
    (evict c rest gone).reading = (update c rest).reading := by
  cases rest <;> rfl

theorem ref_resume : (rest.resume c).ref = (update c rest).ref := by
  cases rest <;> rfl

theorem owning_resume : (rest.resume c).owning = none := by
  cases rest <;> rfl

theorem filling_resume : (rest.resume c).filling = none := by
  cases rest <;> rfl

theorem reading_resume :
    (rest.resume c).reading = (update c rest).reading := by
  cases rest <;> rfl

end Pc

namespace SharedProvider

variable {σ ι : Type} {backing : Backing σ ι} {fresh : Nat → Mem}
  {s s' : SharedProvider σ} {key key' : Nat → UInt32} {t : Nat} {p q : Pc}
  {a : Action ι}

-- ============================================= who holds which entry

/-- Every entry is for one id, and its mutex is held by the thread that
the entry says. -/
structure Held (key : Nat → UInt32) (s : SharedProvider σ) : Prop where
  mapped : ∀ id e, s.entries id = some e → e < s.next ∧ key e = id
  refs : ∀ t id e, (s.threads t).ref = some (id, e) → e < s.next ∧ key e = id
  owner : ∀ t e, (s.slot e).owner = some t ↔ (s.threads t).owning = some e

/-- A step of thread `t` to `q` that makes no entry. -/
theorem Held.move (h : Held key s)
    (hthreads : s'.threads = Function.update s.threads t q)
    (hnext : s'.next = s.next)
    (hentries : ∀ id e, s'.entries id = some e → s.entries id = some e)
    (href : ∀ id e, q.ref = some (id, e) →
      (s.threads t).ref = some (id, e) ∨ s.entries id = some e)
    (howner : ∀ e, (s'.slot e).owner = if q.owning = some e then some t
      else if (s.threads t).owning = some e then none else (s.slot e).owner)
    (hfree : ∀ e, q.owning = some e →
      (s.threads t).owning = some e ∨ (s.slot e).owner = none) :
    Held key s' := by
  refine ⟨fun id e he => ?_, ?_, ?_⟩
  · rw [hnext]
    exact h.mapped id e (hentries id e he)
  · rw [hthreads, hnext]
    refine (Function.forall_update_iff s.threads fun _ pc =>
      ∀ id e, pc.ref = some (id, e) → e < s.next ∧ key e = id).2
      ⟨fun id e he => ?_, fun u _ => h.refs u⟩
    rcases href id e he with he | he
    · exact h.refs t id e he
    · exact h.mapped id e he
  · intro u e
    rw [howner, hthreads, Function.update_apply]
    have ht := h.owner t e
    have hu := h.owner u e
    by_cases hut : u = t
    · subst hut
      grind
    · rw [if_neg hut]
      grind

/-- The entries that a thread makes are new. -/
theorem Held.insert (h : Held key s) {c : ReadCall}
    (hkey : key s.next = c.id) (hidle : (s.threads t).owning = none) :
    Held key ((s.insertEntry fresh t c.id).goto t (.load c s.next)) := by
  refine ⟨fun id e he => ?_, ?_, fun u e => ?_⟩
  · have he' : Function.update s.entries c.id (some s.next) id = some e := he
    rw [Function.update_apply] at he'
    split at he'
    · next hid =>
      rw [Option.some.injEq] at he'
      rw [← he', hid]
      exact ⟨Nat.lt_succ_self _, hkey⟩
    · obtain ⟨hlt, hk⟩ := h.mapped id e he'
      exact ⟨Nat.lt_succ_of_lt hlt, hk⟩
  · refine (Function.forall_update_iff s.threads fun _ pc =>
      ∀ id e, pc.ref = some (id, e) → e < s.next + 1 ∧ key e = id).2
      ⟨fun id e he => ?_, fun u _ id e he => ?_⟩
    · cases he
      exact ⟨Nat.lt_succ_self _, hkey⟩
    · obtain ⟨hlt, hk⟩ := h.refs u id e he
      exact ⟨Nat.lt_succ_of_lt hlt, hk⟩
  · show (Function.update s.slot s.next _ e).owner = some u
      ↔ (Function.update s.threads t (.load c s.next) u).owning = some e
    have hnew : ∀ v, (s.threads v).owning ≠ some s.next := by
      intro v hv
      obtain ⟨id, hid⟩ := Pc.ref_of_owning hv
      have hlt := (h.refs v id s.next hid).1
      omega
    have hu := h.owner u e
    rw [Function.update_apply, Function.update_apply]
    by_cases he : e = s.next
    · have := hnew u
      rw [he]
      grind [Pc.owning]
    · rw [if_neg he, hu]
      by_cases hut : u = t
      · rw [hut, if_pos rfl, hidle]
        simp [Pc.owning, Ne.symm he]
      · rw [if_neg hut]

/-- The mutexes are as before. -/
theorem Held.owner_same (h : Held key s)
    (hsame : q.owning = (s.threads t).owning) (e : Nat) :
    (s.slot e).owner = if q.owning = some e then some t
      else if (s.threads t).owning = some e then none
      else (s.slot e).owner := by
  rw [hsame]
  by_cases he : (s.threads t).owning = some e
  · rw [if_pos he]
    exact (h.owner t e).2 he
  · rw [if_neg he, if_neg he]

/-- The id of an entry that was not made yet is free. -/
theorem Held.rekey (h : Held key s) (id : UInt32) :
    Held (Function.update key s.next id) s := by
  have hold : ∀ e, e < s.next → Function.update key s.next id e = key e :=
    fun e he => Function.update_of_ne (Nat.ne_of_lt he) _ _
  refine ⟨fun i e he => ?_, fun u i e he => ?_, h.owner⟩
  · obtain ⟨hlt, hk⟩ := h.mapped i e he
    exact ⟨hlt, (hold e hlt).trans hk⟩
  · obtain ⟨hlt, hk⟩ := h.refs u i e he
    exact ⟨hlt, (hold e hlt).trans hk⟩

/-- The id each entry is for, after a step. -/
def keyed (key : Nat → UInt32) (s : SharedProvider σ) :
    Action ι → Nat → UInt32
  | .call _ _ => key
  | .step t _ =>
      match s.threads t with
      | .lookup c | .replace c _ => Function.update key s.next c.id
      | _ => key

/-- The ids of the entries stay, but for that of a new one. -/
theorem keyed_cases (key : Nat → UInt32) (s : SharedProvider σ)
    (a : Action ι) :
    keyed key s a = key
      ∨ ∃ id, keyed key s a = Function.update key s.next id := by
  cases a with
  | call t c => exact .inl rfl
  | step t x =>
      rw [keyed]
      split
      · exact .inr ⟨_, rfl⟩
      · exact .inr ⟨_, rfl⟩
      · exact .inl rfl

/-- A thread that goes on to make an entry was nowhere else before. -/
theorem insertEntry_goto (s : SharedProvider σ) (c : ReadCall) (q r : Pc) :
    ((s.goto t q).insertEntry fresh t c.id).goto t r
      = (s.insertEntry fresh t c.id).goto t r := by
  unfold goto insertEntry setEntry setSlot
  rw [Function.update_idem]

/-- A thread gives back the mutex of an entry, or takes it. -/
theorem owner_setOwner (e : Nat) (owner : Option Nat) (e' : Nat) :
    ((s.setOwner e owner).slot e').owner
      = if e' = e then owner else (s.slot e').owner := by
  show (Function.update s.slot e _ e').owner = _
  rw [Function.update_apply]
  split <;> rfl

/-- A mutex that changes hands leaves what is in the entries. -/
theorem entry_setOwner (e : Nat) (owner : Option Nat) (e' : Nat) :
    ((s.setOwner e owner).slot e').entry = (s.slot e').entry := by
  show (Function.update s.slot e _ e').entry = _
  rw [Function.update_apply]
  split
  · next he => rw [he]
  · rfl

/-- Giving back a mutex, as `Held.move` needs it. -/
theorem owner_release {e : Nat} (hp : (s.threads t).owning = some e)
    (hq : q.owning = none) (e' : Nat) :
    ((s.setOwner e none).slot e').owner = if q.owning = some e' then some t
      else if (s.threads t).owning = some e' then none
      else (s.slot e').owner := by
  rw [owner_setOwner, hq, hp]
  by_cases he : e' = e
  · rw [he]
    simp
  · simp [he, Ne.symm he]

/-- A thread gives back its mutex and looks the id up again. -/
theorem Held.backToLookup (h : Held key s) {e : Nat}
    (hp : (s.threads t).owning = some e) (c : ReadCall) :
    Held key ((s.setOwner e none).goto t (.lookup c)) :=
  h.move rfl rfl (fun _ _ he => he) (by simp) (owner_release hp rfl)
    (by simp)

/-- Loading an entry leaves its mutex alone. -/
theorem owner_readInto {entry : CacheEntry} (e e' : Nat) :
    (Function.update s.slot e { s.slot e with entry := entry } e').owner
      = (s.slot e').owner := by
  rw [Function.update_apply]
  split
  · next he => rw [he]
  · rfl

/-- What the map has after an erasure it had before. -/
theorem entries_erase {gone id : UInt32} {e : Nat}
    (h : Function.update s.entries gone none id = some e) :
    s.entries id = some e := by
  rw [Function.update_apply] at h
  split at h
  · cases h
  · exact h

/-- A step of any thread keeps the mutexes where the owners say. -/
theorem held_step (h : Held key s) (hs : Moves backing fresh s a s') :
    Held (keyed key s a) s' := by
  have hk : Held (keyed key s a) s := by
    rcases keyed_cases key s a with hkey | ⟨id, hkey⟩
    · rw [hkey]
      exact h
    · rw [hkey]
      exact h.rekey id
  have hquiet : ∀ {t q} {s' : SharedProvider σ},
      s'.threads = Function.update s.threads t q → s'.next = s.next →
      (∀ id e, s'.entries id = some e → s.entries id = some e) →
      (∀ id e, q.ref = some (id, e) →
        (s.threads t).ref = some (id, e) ∨ s.entries id = some e) →
      (∀ e, (s'.slot e).owner = (s.slot e).owner) →
      q.owning = (s.threads t).owning → Held (keyed key s a) s' := by
    intro t q s' hthreads hnext hentries href howner hsame
    refine hk.move hthreads hnext hentries href (fun e => ?_) fun e he => ?_
    · rw [howner]
      exact hk.owner_same hsame e
    · exact .inl (hsame ▸ he)
  cases hs with
  | @refuse t c hpc hrange =>
      exact hquiet rfl rfl (fun _ _ he => he) (by simp) (fun _ => rfl)
        (Pc.owning_of_resting hpc).symm
  | @start t c hpc =>
      exact hquiet rfl rfl (fun _ _ he => he) (by simp) (fun _ => rfl)
        (Pc.owning_of_resting hpc).symm
  | @found t x c e hpc hentry =>
      refine hquiet rfl rfl (fun _ _ he => he) (fun id e' he => .inr ?_)
        (fun _ => rfl) (by simp [hpc])
      cases he
      exact hentry
  | @missed t x c hpc hentry =>
      exact hk.insert (by simp [keyed, hpc]) (by simp [hpc])
  | @acquire t x c e hpc hfree =>
      refine hk.move rfl rfl (fun _ _ he => he) (fun id e' he => .inl ?_)
        (fun e' => ?_) (fun e' he => .inr ?_)
      · rw [hpc]
        exact he
      · show ((s.setOwner e (some t)).slot e').owner = _
        rw [owner_setOwner, hpc]
        by_cases he : e' = e
        · simp [he]
        · simp [he, Ne.symm he]
      · cases he
        exact hfree
  | @hit t x c e hpc hlen =>
      exact hk.move rfl rfl (fun _ _ he => he) (by simp [hpc])
        (owner_release (by simp [hpc]) rfl) (by simp)
  | @empty t x c e hpc hlen =>
      exact hquiet rfl rfl (fun _ _ he => he) (by simp [hpc])
        (fun _ => rfl) (by simp [hpc])
  | @replace t x c e hpc =>
      have hown : (s.threads t).owning = some e := by simp [hpc]
      have hback := hk.backToLookup hown c
      rw [← insertEntry_goto (s.setOwner e none) c (.lookup c)]
      refine hback.insert ?_ (by simp [goto])
      show keyed key s (.step t x) s.next = c.id
      simp [keyed, hpc]
  | @load t x c e hpc =>
      refine hquiet rfl rfl (fun _ _ he => he) (fun id e' he => .inl ?_)
        (owner_readInto e) ?_
      · rw [hpc]
        exact Pc.ref_loaded.symm.trans he
      · rw [hpc]
        exact Pc.owning_loaded
  | @fetch t x c e r hpc hr =>
      refine hquiet rfl rfl (fun _ _ he => he) (fun id e' he => .inl ?_)
        (fun _ => rfl) ?_
      · rw [hpc]
        exact Pc.ref_fetched.symm.trans he
      · rw [hpc]
        exact Pc.owning_fetched
  | @reload t x c e hpc =>
      refine hquiet rfl rfl (fun _ _ he => he) (fun id e' he => .inl ?_)
        (owner_readInto e) ?_
      · rw [hpc]
        exact Pc.ref_reloaded.symm.trans he
      · rw [hpc]
        exact Pc.owning_reloaded
  | @release t x c e hpc =>
      exact hk.move rfl rfl (fun _ _ he => he) (by simp [hpc])
        (owner_release (by simp [hpc]) rfl) (by simp)
  | @copy t x c e hit hpc =>
      refine hquiet rfl rfl (fun _ _ he => he) (fun id e' he => ?_)
        (fun _ => rfl) ?_
      · split_ifs at he <;> cases he
      · rw [hpc]
        split_ifs <;> rfl
  | @update t x c rest collector hpc hupdate =>
      refine hquiet rfl rfl (fun _ _ he => he) (fun id e' he => .inl ?_)
        (fun _ => rfl) ?_
      · rw [hpc, ← Pc.ref_resume]
        exact he
      · rw [hpc]
        exact Pc.owning_resume
  | @pushOut t x c rest collector gone hpc hupdate =>
      refine hquiet rfl rfl (fun _ _ he => he) (fun id e' he => .inl ?_)
        (fun _ => rfl) (by simp [hpc])
      rw [hpc]
      exact Pc.ref_evict.symm.trans he
  | @evict t x c rest gone hpc =>
      refine hquiet rfl rfl (fun id e he => entries_erase he)
        (fun id e' he => .inl ?_) (fun _ => rfl) ?_
      · rw [hpc, Pc.ref_evict, ← Pc.ref_resume]
        exact he
      · rw [hpc]
        exact Pc.owning_resume
  | @fail t x c e err hpc =>
      refine hk.move rfl rfl (fun id e he => entries_erase he) (by simp)
        (fun e' => ?_) (by simp)
      show (Function.update s.slot e _ e').owner = _
      rw [Function.update_apply, hpc]
      by_cases he : e' = e
      · simp [he]
      · simp [he, Ne.symm he]

-- ================================================ what the entries hold

/-- The whole chunk is in the entry. -/
def Good (content : UInt32 → Bytes) (id : UInt32) (entry : CacheEntry) :
    Prop :=
  entry.len = chunkSizeBytes
    ∧ entry.data.read 0 chunkSizeBytes = content id

/-- The store reads a chunk whole or not at all, and always the same. -/
def Steady (content : UInt32 → Bytes) (backing : Backing σ ι) : Prop :=
  ∀ store x id entry, (backing.readChunk store x id entry).1 = .ok →
    Good content id (backing.readChunk store x id entry).2.1

/-- Some thread is loading the entry, or has failed to. -/
def Filled (s : SharedProvider σ) (e : Nat) : Prop :=
  ∃ u, (s.threads u).filling = some e

/-- An entry that no thread is loading is empty or has its chunk; it is not
empty if it is in the map, or is about to be read. -/
structure Valid (content : UInt32 → Bytes) (key : Nat → UInt32)
    (s : SharedProvider σ) : Prop where
  good : ∀ e < s.next, 0 < (s.slot e).entry.len →
    Good content (key e) (s.slot e).entry ∨ Filled s e
  reading : ∀ u e, (s.threads u).reading = some e →
    0 < (s.slot e).entry.len ∧ ¬ Filled s e
  present : ∀ id e, s.entries id = some e →
    0 < (s.slot e).entry.len ∨ Filled s e

variable {content : UInt32 → Bytes}

/-- A good entry has a byte at least. -/
theorem Good.pos {id : UInt32} {entry : CacheEntry}
    (h : Good content id entry) : 0 < entry.len := by
  have := chunkSizeBytes_eq
  rw [h.1]
  omega

/-- A step of thread `t` to `q` that leaves the entries alone. -/
theorem Valid.move (h : Valid content key s)
    (hthreads : s'.threads = Function.update s.threads t q)
    (hnext : s'.next = s.next)
    (hslot : ∀ e, (s'.slot e).entry = (s.slot e).entry)
    (hentries : ∀ id e, s'.entries id = some e → s.entries id = some e)
    (hfilling : q.filling = (s.threads t).filling)
    (hreading : ∀ e, q.reading = some e → (s.threads t).reading = some e
      ∨ (0 < (s.slot e).entry.len ∧ ¬ Filled s e)) :
    Valid content key s' := by
  have hfilled : ∀ e, Filled s' e ↔ Filled s e := by
    intro e
    refine exists_congr fun u => ?_
    rw [hthreads, Function.update_apply]
    by_cases hu : u = t
    · rw [if_pos hu, hu, hfilling]
    · rw [if_neg hu]
  refine ⟨fun e hlt he => ?_, ?_, fun id e he => ?_⟩
  · rw [hslot] at he ⊢
    rw [hfilled]
    exact h.good e (hnext ▸ hlt) he
  · rw [hthreads]
    refine (Function.forall_update_iff s.threads fun _ pc =>
      ∀ e, pc.reading = some e →
        0 < (s'.slot e).entry.len ∧ ¬ Filled s' e).2
      ⟨fun e he => ?_, fun u _ e he => ?_⟩
    · rw [hslot, hfilled]
      rcases hreading e he with he | he
      · exact h.reading t e he
      · exact he
    · rw [hslot, hfilled]
      exact h.reading u e he
  · rw [hslot, hfilled]
    exact h.present id e (hentries id e he)

/-- The entry a thread is loading, it alone is loading. -/
theorem Held.filling_unique (h : Held key s) {u e : Nat}
    (ht : (s.threads t).filling = some e)
    (hu : (s.threads u).filling = some e) : u = t := by
  have ht' := (h.owner t e).2 (Pc.owning_of_filling ht)
  have hu' := (h.owner u e).2 (Pc.owning_of_filling hu)
  rw [ht', Option.some.injEq] at hu'
  exact hu'.symm

/-- The call of `read_chunk` that fills an entry. -/
theorem Valid.fill (h : Valid content key s) (hheld : Held key s)
    {e : Nat} {entry : CacheEntry}
    (hthreads : s'.threads = Function.update s.threads t q)
    (hnext : s'.next = s.next)
    (hslot : ∀ e', (s'.slot e').entry
      = if e' = e then entry else (s.slot e').entry)
    (hentries : ∀ id e', s'.entries id = some e' → s.entries id = some e')
    (hp : (s.threads t).filling = some e)
    (hq : (q.filling = some e ∧ q.reading = none)
      ∨ (q.filling = none ∧ (∀ e', q.reading = some e' → e' = e)
        ∧ Good content (key e) entry)
      ∨ (q.filling = none ∧ q.reading = none ∧ entry.len = 0
        ∧ ∀ id, s'.entries id ≠ some e)) :
    Valid content key s' := by
  have hother : ∀ e', e' ≠ e → (Filled s' e' ↔ Filled s e') := by
    intro e' he'
    refine exists_congr fun u => ?_
    rw [hthreads, Function.update_apply]
    by_cases hu : u = t
    · rw [if_pos hu, hu, hp]
      rcases hq with hq | hq | hq
      · rw [hq.1]
      · rw [hq.1]
        simp [Ne.symm he']
      · rw [hq.1]
        simp [Ne.symm he']
    · rw [if_neg hu]
  have hself : Filled s' e ↔ q.filling = some e := by
    constructor
    · rintro ⟨u, hu⟩
      rw [hthreads, Function.update_apply] at hu
      split at hu
      · exact hu
      · next hut => exact absurd (hheld.filling_unique hp hu) hut
    · intro hfilling
      refine ⟨t, ?_⟩
      rw [hthreads, Function.update_self]
      exact hfilling
  refine ⟨fun e' hlt he' => ?_, ?_, fun id e' he' => ?_⟩
  · by_cases heq : e' = e
    · subst heq
      rw [hslot, if_pos rfl] at he' ⊢
      rw [hself]
      rcases hq with hq | hq | hq
      · exact .inr hq.1
      · exact .inl hq.2.2
      · omega
    · rw [hslot, if_neg heq] at he' ⊢
      rw [hother e' heq]
      exact h.good e' (hnext ▸ hlt) he'
  · rw [hthreads]
    refine (Function.forall_update_iff s.threads fun _ pc =>
      ∀ e', pc.reading = some e' →
        0 < (s'.slot e').entry.len ∧ ¬ Filled s' e').2
      ⟨fun e' he' => ?_, fun u _ e' he' => ?_⟩
    · rcases hq with hq | hq | hq
      · rw [hq.2] at he'
        cases he'
      · rw [hq.2.1 e' he', hslot, if_pos rfl, hself, hq.1]
        exact ⟨hq.2.2.pos, (Option.some_ne_none e).symm⟩
      · rw [hq.2.1] at he'
        cases he'
    · have hold := h.reading u e' he'
      have heq : e' ≠ e := by
        rintro rfl
        exact hold.2 ⟨t, hp⟩
      rw [hslot, if_neg heq, hother e' heq]
      exact hold
  · by_cases heq : e' = e
    · subst heq
      rw [hslot, if_pos rfl, hself]
      rcases hq with hq | hq | hq
      · exact .inr hq.1
      · exact .inl hq.2.2.pos
      · exact absurd he' (hq.2.2.2 id)
    · rw [hslot, if_neg heq, hother e' heq]
      exact h.present id e' (hentries id e' he')

/-- A new entry is empty, and its thread is loading it. -/
theorem Valid.insert (h : Valid content key s) (hheld : Held key s)
    (c : ReadCall) (hp : (s.threads t).filling = none) :
    Valid content key
      ((s.insertEntry fresh t c.id).goto t (.load c s.next)) := by
  generalize hs' : (s.insertEntry fresh t c.id).goto t (.load c s.next) = s'
  have hthreads : s'.threads
      = Function.update s.threads t (.load c s.next) := by
    rw [← hs']
    rfl
  have hslot : ∀ e, e ≠ s.next → s'.slot e = s.slot e := by
    intro e he
    rw [← hs']
    exact Function.update_of_ne he _ _
  have hother : ∀ e, e ≠ s.next → (Filled s' e ↔ Filled s e) := by
    intro e he
    refine exists_congr fun u => ?_
    rw [hthreads, Function.update_apply]
    by_cases hu : u = t
    · rw [if_pos hu, hu, hp]
      simp [Ne.symm he]
    · rw [if_neg hu]
  have hnew : Filled s' s.next := by
    refine ⟨t, ?_⟩
    rw [hthreads, Function.update_self]
    rfl
  refine ⟨fun e hlt he => ?_, ?_, fun id e he => ?_⟩
  · by_cases heq : e = s.next
    · exact .inr (heq ▸ hnew)
    · have hlt' : e < s.next + 1 := by
        rw [← hs'] at hlt
        exact hlt
      rw [hslot e heq] at he ⊢
      rw [hother e heq]
      exact h.good e (by omega) he
  · rw [hthreads]
    refine (Function.forall_update_iff s.threads fun _ pc =>
      ∀ e, pc.reading = some e →
        0 < (s'.slot e).entry.len ∧ ¬ Filled s' e).2
      ⟨fun e he => (by cases he), fun u _ e he => ?_⟩
    obtain ⟨id, hid⟩ := Pc.ref_of_reading he
    have heq := Nat.ne_of_lt (hheld.refs u id e hid).1
    rw [hslot e heq, hother e heq]
    exact h.reading u e he
  · by_cases heq : e = s.next
    · exact .inr (heq ▸ hnew)
    · rw [hslot e heq, hother e heq]
      have he' :
          Function.update s.entries c.id (some s.next) id = some e := by
        rw [← hs'] at he
        exact he
      rw [Function.update_apply] at he'
      split at he'
      · rw [Option.some.injEq] at he'
        exact absurd he'.symm heq
      · exact h.present id e he'

/-- An entry that does not exist yet may be for any id. -/
theorem Valid.rekey (h : Valid content key s) (id : UInt32) :
    Valid content (Function.update key s.next id) s := by
  refine ⟨fun e hlt he => ?_, h.reading, h.present⟩
  rw [Function.update_of_ne (Nat.ne_of_lt hlt)]
  exact h.good e hlt he

/-- What is in the entries after one has changed. -/
theorem entry_update {slot : Slot} (e e' : Nat) :
    (Function.update s.slot e slot e').entry
      = if e' = e then slot.entry else (s.slot e').entry := by
  rw [Function.update_apply]
  split <;> rfl

/-- A step of any thread keeps the entries that nobody fills valid. -/
theorem valid_step (hsteady : Steady content backing)
    (h : Valid content key s) (hheld : Held key s)
    (hs : Moves backing fresh s a s') :
    Valid content (keyed key s a) s' := by
  have hk : Valid content (keyed key s a) s ∧ Held (keyed key s a) s := by
    rcases keyed_cases key s a with hkey | ⟨id, hkey⟩
    · rw [hkey]
      exact ⟨h, hheld⟩
    · rw [hkey]
      exact ⟨h.rekey id, hheld.rekey id⟩
  obtain ⟨hk, hheld'⟩ := hk
  have hwhole : ∀ {t x c e},
      s.threads t = .load c e ∨ s.threads t = .reload c e →
      (backing.readChunk s.store x c.id (s.slot e).entry).1 = .ok →
      Good content (keyed key s a e)
        (backing.readChunk s.store x c.id (s.slot e).entry).2.1 := by
    intro t x c e hpc hok
    have href : (s.threads t).ref = some (c.id, e) := by
      rcases hpc with hpc | hpc <;> rw [hpc] <;> rfl
    rw [(hheld'.refs t c.id e href).2]
    exact hsteady _ _ _ _ hok
  cases hs with
  | @refuse t c hpc hrange =>
      exact hk.move rfl rfl (fun _ => rfl) (fun _ _ he => he)
        (Pc.filling_of_resting hpc).symm (by simp)
  | @start t c hpc =>
      exact hk.move rfl rfl (fun _ => rfl) (fun _ _ he => he)
        (Pc.filling_of_resting hpc).symm (by simp)
  | @found t x c e hpc hentry =>
      exact hk.move rfl rfl (fun _ => rfl) (fun _ _ he => he) (by simp [hpc])
        (by simp)
  | @missed t x c hpc hentry => exact hk.insert hheld' c (by simp [hpc])
  | @acquire t x c e hpc hfree =>
      exact hk.move rfl rfl (entry_setOwner e _) (fun _ _ he => he)
        (by simp [hpc]) (by simp)
  | @hit t x c e hpc hlen =>
      refine hk.move rfl rfl (entry_setOwner e _) (fun _ _ he => he)
        (by simp [hpc]) fun e' he => .inr ?_
      cases he
      -- the mutex is held here, so no one is loading the entry
      refine ⟨hlen, fun ⟨u, hu⟩ => ?_⟩
      have ht := (hheld.owner t e).2 (by rw [hpc]; rfl)
      have hu' := (hheld.owner u e).2 (Pc.owning_of_filling hu)
      rw [ht, Option.some.injEq] at hu'
      rw [← hu', hpc] at hu
      cases hu
  | @empty t x c e hpc hlen =>
      exact hk.move rfl rfl (fun _ => rfl) (fun _ _ he => he) (by simp [hpc])
        (by simp)
  | @replace t x c e hpc =>
      have hown : (s.threads t).owning = some e := by simp [hpc]
      have hback : Valid content (keyed key s (.step t x))
          ((s.setOwner e none).goto t (.lookup c)) :=
        hk.move rfl rfl (entry_setOwner e _) (fun _ _ he => he)
          (by simp [hpc]) (by simp)
      rw [← insertEntry_goto (s.setOwner e none) c (.lookup c)]
      exact hback.insert (hheld'.backToLookup hown c) c (by simp [goto])
  | @load t x c e hpc =>
      refine hk.fill hheld' rfl rfl (entry_update e) (fun _ _ he => he)
        (by simp [hpc]) ?_
      unfold Pc.loaded
      split_ifs with hok hmissing
      · exact .inr (.inl ⟨rfl, fun e' he => (Option.some.inj he).symm,
          hwhole (.inl hpc) hok⟩)
      · exact .inl ⟨rfl, rfl⟩
      · exact .inl ⟨rfl, rfl⟩
  | @fetch t x c e r hpc hr =>
      refine hk.move rfl rfl (fun _ => rfl) (fun _ _ he => he) ?_
        fun e' he => ?_
      · rw [hpc]
        exact Pc.filling_fetched
      · rw [Pc.reading_fetched] at he
        cases he
  | @reload t x c e hpc =>
      refine hk.fill hheld' rfl rfl (entry_update e) (fun _ _ he => he)
        (by simp [hpc]) ?_
      unfold Pc.reloaded
      split_ifs with hok
      · exact .inr (.inl ⟨rfl, fun e' he => (Option.some.inj he).symm,
          hwhole (.inr hpc) hok⟩)
      · exact .inl ⟨rfl, rfl⟩
  | @release t x c e hpc =>
      exact hk.move rfl rfl (entry_setOwner e _) (fun _ _ he => he)
        (by simp [hpc]) fun e' he => .inl (by rw [hpc]; exact he)
  | @copy t x c e hit hpc =>
      refine hk.move rfl rfl (fun _ => rfl) (fun _ _ he => he) ?_
        fun e' he => ?_
      · rw [hpc]
        split_ifs <;> rfl
      · split_ifs at he <;> cases he
  | @update t x c rest collector hpc hupdate =>
      refine hk.move rfl rfl (fun _ => rfl) (fun _ _ he => he) ?_
        fun e' he => .inl ?_
      · rw [hpc]
        exact Pc.filling_resume
      · rw [hpc, ← Pc.reading_resume]
        exact he
  | @pushOut t x c rest collector gone hpc hupdate =>
      refine hk.move rfl rfl (fun _ => rfl) (fun _ _ he => he)
        (by simp [hpc]) fun e' he => .inl ?_
      rw [hpc]
      exact Pc.reading_evict.symm.trans he
  | @evict t x c rest gone hpc =>
      refine hk.move rfl rfl (fun _ => rfl)
        (fun _ _ he => entries_erase he) ?_ fun e' he => .inl ?_
      · rw [hpc]
        exact Pc.filling_resume
      · rw [hpc, Pc.reading_evict, ← Pc.reading_resume]
        exact he
  | @fail t x c e err hpc =>
      refine hk.fill hheld' rfl rfl (entry_update e)
        (fun _ _ he => entries_erase he) (by simp [hpc])
        (.inr (.inr ⟨rfl, rfl, rfl, fun id he => ?_⟩))
      -- an entry in the map is under its own id, which is erased
      have hid := (hheld'.mapped id e (entries_erase he)).2
      rw [(hheld'.refs t c.id e (by simp [hpc])).2] at hid
      have he' : Function.update s.entries c.id none id = some e := he
      rw [hid, Function.update_self] at he'
      cases he'

end SharedProvider

end Distfs

/-
The chunk cache under concurrency: transparent and bounded.

`Tracked` is why the cache is bounded. An id in the map is in the
collector's queue; or the collector's callback is about to erase it; or
some thread is yet to update the collector with it or to erase it. Every
race over an id ends in one of the last two: a thread that puts an entry
in the map, over whatever is there, does the first if its load succeeds
and the second if not.

`Replied` says what calls return, with a history variable `failure` for
the error of the load that the call itself made.
-/
import Distfs.Data.CacheEntries

namespace Distfs

namespace Pc

/-- The id a thread will yet update the collector with, or erase. -/
@[simp] def settling : Pc → Option UInt32
  | .load c _ | .fetch c _ | .reload c _ | .release c _ | .copy c _ false
  | .update c _ | .fail c _ _ => some c.id
  | _ => none

/-- The id the collector's callback is about to erase. -/
@[simp] def evicting : Pc → Option UInt32
  | .evict _ _ gone => some gone
  | _ => none

/-- The reply a thread has for its call. -/
@[simp] def reply : Pc → Option (ReadCall × ChunkReply)
  | .update c (.reply r) | .evict c (.reply r) _ | .done c r => some (c, r)
  | _ => none

/-- A thread outside of a call has nothing to settle. -/
theorem settling_of_resting {pc : Pc} (h : pc.resting) :
    pc.settling = none := by
  rcases resting_cases h with rfl | ⟨c, r, rfl⟩ <;> rfl

/-- A thread outside of a call is in no callback of the collector. -/
theorem evicting_of_resting {pc : Pc} (h : pc.resting) :
    pc.evicting = none := by
  rcases resting_cases h with rfl | ⟨c, r, rfl⟩ <;> rfl

variable {c c' : ReadCall} {e e' : Nat} {err err' : ErrorCode} {rest : Rest}
  {gone : UInt32}

-- Whatever a load or a fetch returns, the id is yet to be settled, and
-- there is no reply; a call that it fails has its error.

theorem settling_loaded : (loaded c e err).settling = some c.id := by
  unfold loaded
  split_ifs <;> rfl

theorem settling_fetched : (fetched c e err).settling = some c.id := by
  unfold fetched
  split_ifs <;> rfl

theorem settling_reloaded : (reloaded c e err).settling = some c.id := by
  unfold reloaded
  split_ifs <;> rfl

theorem reply_loaded : (loaded c e err).reply = none := by
  unfold loaded
  split_ifs <;> rfl

theorem reply_fetched : (fetched c e err).reply = none := by
  unfold fetched
  split_ifs <;> rfl

theorem reply_reloaded : (reloaded c e err).reply = none := by
  unfold reloaded
  split_ifs <;> rfl

/-- A load that fails ends the call with the code of the store. -/
theorem fail_of_loaded (h : loaded c e err = .fail c' e' err') :
    err ≠ .ok ∧ err' = err := by
  unfold loaded at h
  split_ifs at h with hok hmissing
  cases h
  exact ⟨hok, rfl⟩

/-- A fetch that fails ends it with the code of the network. -/
theorem fail_of_fetched (h : fetched c e err = .fail c' e' err') :
    err ≠ .ok ∧ err' = err := by
  unfold fetched at h
  split_ifs at h with hok
  cases h
  exact ⟨hok, rfl⟩

/-- A second read that fails ends it with the code of the store. -/
theorem fail_of_reloaded (h : reloaded c e err = .fail c' e' err') :
    err ≠ .ok ∧ err' = err := by
  unfold reloaded at h
  split_ifs at h with hok
  cases h
  exact ⟨hok, rfl⟩

-- While a thread updates the collector, and after it, it has the reply it
-- had before.

/-- The callback does not touch the reply of the call it runs in. -/
theorem reply_evict : (evict c rest gone).reply = (update c rest).reply := by
  cases rest <;> rfl

/-- What is left after the collector has the reply there was. -/
theorem reply_resume : (rest.resume c).reply = (update c rest).reply := by
  cases rest <;> rfl

theorem evicting_resume : (rest.resume c).evicting = none := by
  cases rest <;> rfl

/-- A call does not fail after the collector. -/
theorem resume_ne_fail : rest.resume c ≠ .fail c' e err := by
  cases rest <;> exact Pc.noConfusion

end Pc

namespace SharedProvider

variable {σ ι : Type} {backing : Backing σ ι} {fresh : Nat → Mem}
  {s s' : SharedProvider σ} {key : Nat → UInt32} {t : Nat} {q : Pc}
  {a : Action ι} {content : UInt32 → Bytes} {cacheSize : Nat}

-- ====================================================== what is tracked

/-- Some thread will yet update the collector with the id, or erase it. -/
def Unsettled (s : SharedProvider σ) (id : UInt32) : Prop :=
  ∃ u, (s.threads u).settling = some id ∨ (s.threads u).evicting = some id

/-- The ids in the map are in the queue, or will be, or will be erased. -/
structure Tracked (cacheSize : Nat) (s : SharedProvider σ) : Prop where
  collector : ∃ used, s.collector.Tracks used
  size : s.collector.size = cacheSize
  tracked : ∀ id, (s.entries id).isSome →
    id ∈ s.collector.ids ∨ Unsettled s id
  updating : ∀ u, s.updating = some u → (s.threads u).evicting.isSome

/-- A step of thread `t` to `q` that leaves the collector alone. -/
theorem Tracked.move (h : Tracked cacheSize s)
    (hthreads : s'.threads = Function.update s.threads t q)
    (hcollector : s'.collector = s.collector)
    (hupdating : ∀ u, s'.updating = some u → u ≠ t ∧ s.updating = some u)
    (hentries : ∀ id, (s'.entries id).isSome →
      q.settling = some id
        ∨ ((s.entries id).isSome ∧ ((s.threads t).settling = some id →
          q.settling = some id) ∧ (s.threads t).evicting ≠ some id)) :
    Tracked cacheSize s' := by
  refine ⟨?_, ?_, fun id hid => ?_, fun u hu => ?_⟩
  · rw [hcollector]
    exact h.collector
  · rw [hcollector]
    exact h.size
  · rw [hcollector]
    have hself : q.settling = some id → Unsettled s' id := by
      intro hq
      refine ⟨t, .inl ?_⟩
      rw [hthreads, Function.update_self]
      exact hq
    rcases hentries id hid with hq | ⟨hid, hsettling, hevicting⟩
    · exact .inr (hself hq)
    · rcases h.tracked id hid with hmem | ⟨u, hu⟩
      · exact .inl hmem
      · by_cases hut : u = t
        · subst hut
          exact .inr (hself (hsettling (hu.resolve_right hevicting)))
        · refine .inr ⟨u, ?_⟩
          rw [hthreads, Function.update_of_ne hut]
          exact hu
  · obtain ⟨hut, hu⟩ := hupdating u hu
    rw [hthreads, Function.update_of_ne hut]
    exact h.updating u hu

/-- An update of the collector settles its id, and unsettles the one that
is pushed out. -/
theorem Tracked.update (h : Tracked cacheSize s) {id : UInt32}
    {collector : LruCollector} {gone : Option UInt32}
    (hupdate : s.collector.update id = some (collector, gone))
    (hthreads : s'.threads = Function.update s.threads t q)
    (hcollector : s'.collector = collector)
    (hupdating : ∀ u, s'.updating = some u →
      (q.evicting.isSome ∧ u = t) ∨ (u ≠ t ∧ s.updating = some u))
    (hentries : s'.entries = s.entries)
    (hsettling : ∀ i, (s.threads t).settling = some i → i = id)
    (hevicting : (s.threads t).evicting = none)
    (hq : q.evicting = gone) :
    Tracked cacheSize s' := by
  obtain ⟨used, htracks⟩ := h.collector
  obtain ⟨c', hupdate', htracks', hsize⟩ := htracks.update id
  rw [hupdate, Option.some.injEq, Prod.mk.injEq] at hupdate'
  obtain ⟨rfl, hgone⟩ := hupdate'
  refine ⟨⟨id :: used, ?_⟩, ?_, fun i hi => ?_, fun u hu => ?_⟩
  · rw [hcollector]
    exact htracks'
  · rw [hcollector, hsize]
    exact h.size
  · rw [hentries] at hi
    rw [hcollector, htracks.mem_ids_update htracks' hsize]
    by_cases hid : i = id
    · exact .inl (.inl hid)
    · rcases h.tracked i hi with hmem | ⟨u, hu⟩
      · by_cases hout : gone = some i
        · refine .inr ⟨t, .inr ?_⟩
          rw [hthreads, Function.update_self, hq]
          exact hout
        · exact .inl (.inr ⟨hmem, hgone ▸ hout⟩)
      · refine .inr ⟨u, ?_⟩
        have hut : u ≠ t := by
          rintro rfl
          rcases hu with hu | hu
          · exact hid (hsettling i hu)
          · rw [hevicting] at hu
            cases hu
        rw [hthreads, Function.update_of_ne hut]
        exact hu
  · rw [hthreads]
    rcases hupdating u hu with ⟨hev, rfl⟩ | ⟨hut, hu⟩
    · rw [Function.update_self]
      exact hev
    · rw [Function.update_of_ne hut]
      exact h.updating u hu

/-- A step of any thread keeps the cache tracked. -/
theorem tracked_step (h : Tracked cacheSize s)
    (hs : Moves backing fresh s a s') : Tracked cacheSize s' := by
  have hnot : ∀ {t}, (s.threads t).evicting = none →
      ∀ u, s.updating = some u → u ≠ t ∧ s.updating = some u := by
    intro t ht u hu
    refine ⟨?_, hu⟩
    rintro rfl
    have hsome := h.updating u hu
    rw [ht] at hsome
    cases hsome
  -- a step that keeps the map, and what the thread has yet to settle
  have hquiet : ∀ {t q} {s' : SharedProvider σ},
      s'.threads = Function.update s.threads t q →
      s'.collector = s.collector → s'.updating = s.updating →
      s'.entries = s.entries → (s.threads t).evicting = none →
      (∀ id, (s.threads t).settling = some id → q.settling = some id) →
      Tracked cacheSize s' := by
    intro t q s' hthreads hcollector hupdating hentries hevicting hsettling
    refine h.move hthreads hcollector (fun u hu => ?_) fun id hid => .inr ?_
    · exact hnot hevicting u (hupdating ▸ hu)
    · rw [hentries] at hid
      refine ⟨hid, hsettling id, ?_⟩
      rw [hevicting]
      exact (Option.some_ne_none id).symm
  have hinsert : ∀ {t : Nat} {c : ReadCall} {s' : SharedProvider σ},
      s'.threads = Function.update s.threads t (.load c s.next) →
      s'.collector = s.collector → s'.updating = s.updating →
      s'.entries = Function.update s.entries c.id (some s.next) →
      (s.threads t).settling = none → (s.threads t).evicting = none →
      Tracked cacheSize s' := by
    intro t c s' hthreads hcollector hupdating hentries hsettling hevicting
    refine h.move hthreads hcollector (fun u hu => ?_) fun id hid => ?_
    · exact hnot hevicting u (hupdating ▸ hu)
    · rw [hentries, Function.update_apply] at hid
      split at hid
      · next heq => exact .inl (heq ▸ rfl)
      · refine .inr ⟨hid, fun hp => ?_, ?_⟩
        · rw [hsettling] at hp
          cases hp
        · rw [hevicting]
          exact (Option.some_ne_none id).symm
  cases hs with
  | @refuse t c hpc hrange | @start t c hpc =>
      refine hquiet rfl rfl rfl rfl (Pc.evicting_of_resting hpc)
        fun id hid => ?_
      rw [Pc.settling_of_resting hpc] at hid
      cases hid
  | @found t x c e hpc hentry =>
      exact hquiet rfl rfl rfl rfl (by simp [hpc]) (by simp [hpc])
  | @missed t x c hpc hentry =>
      exact hinsert rfl rfl rfl rfl (by simp [hpc]) (by simp [hpc])
  | @acquire t x c e hpc hfree =>
      exact hquiet rfl rfl rfl rfl (by simp [hpc]) (by simp [hpc])
  | @hit t x c e hpc hlen =>
      exact hquiet rfl rfl rfl rfl (by simp [hpc]) (by simp [hpc])
  | @empty t x c e hpc hlen =>
      exact hquiet rfl rfl rfl rfl (by simp [hpc]) (by simp [hpc])
  | @replace t x c e hpc =>
      exact hinsert rfl rfl rfl rfl (by simp [hpc]) (by simp [hpc])
  | @load t x c e hpc =>
      refine hquiet rfl rfl rfl rfl (by simp [hpc]) fun id hid => ?_
      rw [hpc] at hid
      exact Pc.settling_loaded.trans hid
  | @fetch t x c e r hpc hr =>
      refine hquiet rfl rfl rfl rfl (by simp [hpc]) fun id hid => ?_
      rw [hpc] at hid
      exact Pc.settling_fetched.trans hid
  | @reload t x c e hpc =>
      refine hquiet rfl rfl rfl rfl (by simp [hpc]) fun id hid => ?_
      rw [hpc] at hid
      exact Pc.settling_reloaded.trans hid
  | @release t x c e hpc =>
      refine hquiet rfl rfl rfl rfl (by simp [hpc]) fun id hid => ?_
      rw [hpc] at hid
      exact hid
  | @copy t x c e hit hpc =>
      refine hquiet rfl rfl rfl rfl (by simp [hpc]) fun id hid => ?_
      rw [hpc] at hid
      cases hit with
      | true => cases hid
      | false => exact hid
  | @update t x c rest collector hpc hupdate =>
      refine h.update hupdate rfl rfl (fun u hu => .inr ?_) rfl ?_
        (by simp [hpc]) ?_
      · exact hnot (by simp [hpc]) u hu
      · intro i hi
        rw [hpc] at hi
        exact (Option.some.inj hi).symm
      · exact Pc.evicting_resume
  | @pushOut t x c rest collector gone hpc hupdate =>
      refine h.update hupdate rfl rfl (fun u hu => .inl ?_) rfl ?_
        (by simp [hpc]) rfl
      · exact ⟨rfl, (Option.some.inj hu).symm⟩
      · intro i hi
        rw [hpc] at hi
        exact (Option.some.inj hi).symm
  | @evict t x c rest gone hpc =>
      refine h.move rfl rfl (fun u hu => (by cases hu)) fun id hid => .inr ?_
      have hid' : (Function.update s.entries gone none id).isSome := hid
      rw [Function.update_apply] at hid'
      split at hid'
      · cases hid'
      · next hne =>
        refine ⟨hid', by simp [hpc], ?_⟩
        rw [hpc]
        exact fun hgone => hne (Option.some.inj hgone).symm
  | @fail t x c e err hpc =>
      refine h.move rfl rfl (hnot (by simp [hpc])) fun id hid => .inr ?_
      have hid' : (Function.update s.entries c.id none id).isSome := hid
      rw [Function.update_apply] at hid'
      split at hid'
      · cases hid'
      · next hne =>
        refine ⟨hid', fun hp => ?_, by simp [hpc]⟩
        rw [hpc] at hp
        exact absurd (Option.some.inj hp).symm hne

-- ====================================================== what is replied

/-- The call is for a range inside of the chunk. -/
def InChunk (c : ReadCall) : Prop := c.offset + c.len ≤ chunkSizeBytes

/-- The reply that delivers what was asked for. -/
def slice (content : UInt32 → Bytes) (c : ReadCall) : ChunkReply :=
  { err := .ok, readSize := some c.len
    bytes := ((content c.id).drop c.offset).take c.len }

/-- The error code, if it is one of an error. -/
def asFailure (err : ErrorCode) : Option ErrorCode :=
  if err = .ok then none else some err

/-- The error, if it was one, of the last thing that the current call of
each thread asked of the store or the network. -/
def failure (backing : Backing σ ι) (s : SharedProvider σ)
    (f : Nat → Option ErrorCode) : Action ι → Nat → Option ErrorCode
  | .call t _ => Function.update f t none
  | .step t x =>
      Function.update f t <|
        match s.threads t with
        | .load c e | .reload c e =>
            asFailure (backing.readChunk s.store x c.id (s.slot e).entry).1
        | .fetch c _ => asFailure (backing.fetchChunk s.store x c.id).1
        | _ => f t

/-- A call inside of the chunk is answered with what it asked for, or
with the error that its own load met. -/
structure Replied (content : UInt32 → Bytes) (s : SharedProvider σ)
    (f : Nat → Option ErrorCode) : Prop where
  failing : ∀ u c e err, s.threads u = .fail c e err →
    err ≠ .ok ∧ f u = some err
  replies : ∀ u c r, (s.threads u).reply = some (c, r) → InChunk c →
    r = slice content c ∨ (r.err ≠ .ok ∧ f u = some r.err)

variable {f f' : Nat → Option ErrorCode}

/-- One thread goes on, with a reply that is a slice or the error of its
load. -/
theorem Replied.move (h : Replied content s f)
    (hthreads : s'.threads = Function.update s.threads t q)
    (hf : ∀ u, u ≠ t → f' u = f u)
    (hfailing : ∀ c e err, q = .fail c e err → err ≠ .ok ∧ f' t = some err)
    (hreply : ∀ c r, q.reply = some (c, r) → InChunk c →
      r = slice content c ∨ (r.err ≠ .ok ∧ f' t = some r.err)) :
    Replied content s' f' := by
  constructor
  · rw [hthreads]
    refine (Function.forall_update_iff s.threads fun u pc =>
      ∀ c e err, pc = .fail c e err → err ≠ .ok ∧ f' u = some err).2
      ⟨hfailing, fun u hu => ?_⟩
    rw [hf u hu]
    exact h.failing u
  · rw [hthreads]
    refine (Function.forall_update_iff s.threads fun u pc =>
      ∀ c r, pc.reply = some (c, r) → InChunk c →
        r = slice content c ∨ (r.err ≠ .ok ∧ f' u = some r.err)).2
      ⟨hreply, fun u hu => ?_⟩
    rw [hf u hu]
    exact h.replies u

/-- What is copied out of an entry that is good. -/
theorem copyOut_slice (hlen : ∀ id, (content id).length = chunkSizeBytes)
    {entry : CacheEntry} {c : ReadCall} (hgood : Good content c.id entry)
    (hc : InChunk c) :
    ChunkProvider.copyOut entry c.offset c.len = slice content c := by
  refine ChunkProvider.copyOut_eq ?_ ?_ (hlen c.id) hc
  · rw [hlen]
    exact hgood.1
  · rw [hlen]
    exact hgood.2

/-- A step of any thread keeps the replies true. -/
theorem replied_step (hlen : ∀ id, (content id).length = chunkSizeBytes)
    (h : Replied content s f) (hheld : Held key s)
    (hvalid : Valid content key s) (hs : Moves backing fresh s a s') :
    Replied content s' (failure backing s f a) := by
  have hkeep : ∀ {t x q} {s' : SharedProvider σ},
      s'.threads = Function.update s.threads t q →
      (∀ c e err, q ≠ .fail c e err) →
      (∀ c r, q.reply = some (c, r) → InChunk c → r = slice content c
        ∨ (r.err ≠ .ok ∧ failure backing s f (.step t x) t = some r.err)) →
      Replied content s' (failure backing s f (.step t x)) := by
    intro t x q s' hthreads hfail hreply
    exact h.move hthreads (fun u hu => Function.update_of_ne hu _ _)
      (fun c e err hq => absurd hq (hfail c e err)) hreply
  -- a step that asks the store or the network, and gets `err`
  have hasked : ∀ {t x q err} {s' : SharedProvider σ},
      s'.threads = Function.update s.threads t q →
      failure backing s f (.step t x) t = asFailure err →
      (∀ c e err', q = .fail c e err' → err ≠ .ok ∧ err' = err) →
      q.reply = none →
      Replied content s' (failure backing s f (.step t x)) := by
    intro t x q err s' hthreads hfailure hfail hreply
    refine h.move hthreads (fun u hu => Function.update_of_ne hu _ _)
      (fun c e err' hq => ?_) fun c r hr => ?_
    · obtain ⟨hok, rfl⟩ := hfail c e err' hq
      exact ⟨hok, hfailure.trans (if_neg hok)⟩
    · rw [hreply] at hr
      cases hr
  cases hs with
  | @refuse t c hpc hrange =>
      refine h.move rfl (fun u hu => Function.update_of_ne hu _ _)
        (fun _ _ _ hq => (by cases hq)) fun c' r hr hc => ?_
      cases hr
      have hchunk := chunkSizeBytes_eq
      have hc' : c.offset + c.len ≤ chunkSizeBytes := hc
      rw [uint32_of_lt (by omega)] at hrange
      omega
  | @start t c hpc =>
      exact h.move rfl (fun u hu => Function.update_of_ne hu _ _)
        (fun _ _ _ hq => (by cases hq)) (by simp)
  | @found t x c e hpc hentry => exact hkeep rfl (by simp) (by simp)
  | @missed t x c hpc hentry => exact hkeep rfl (by simp) (by simp)
  | @acquire t x c e hpc hfree => exact hkeep rfl (by simp) (by simp)
  | @hit t x c e hpc hlen => exact hkeep rfl (by simp) (by simp)
  | @empty t x c e hpc hlen => exact hkeep rfl (by simp) (by simp)
  | @replace t x c e hpc => exact hkeep rfl (by simp) (by simp)
  | @load t x c e hpc =>
      refine hasked rfl ?_ (fun _ _ _ => Pc.fail_of_loaded) Pc.reply_loaded
      rw [failure, Function.update_self, hpc]
  | @fetch t x c e r hpc hr =>
      refine hasked rfl ?_ (fun _ _ _ => Pc.fail_of_fetched)
        Pc.reply_fetched
      rw [failure, Function.update_self, hpc, ← hr]
  | @reload t x c e hpc =>
      refine hasked rfl ?_ (fun _ _ _ => Pc.fail_of_reloaded)
        Pc.reply_reloaded
      rw [failure, Function.update_self, hpc]
  | @release t x c e hpc => exact hkeep rfl (by simp) (by simp)
  | @copy t x c e hit hpc =>
      refine hkeep rfl (fun c' e' err hq => ?_) fun c' r hr hc => .inl ?_
      · split_ifs at hq
      · obtain ⟨hpos, hquiet⟩ := hvalid.reading t e (by simp [hpc])
        obtain ⟨hlt, hkey⟩ := hheld.refs t c.id e (by simp [hpc])
        have hgood := (hvalid.good e hlt hpos).resolve_right hquiet
        rw [hkey] at hgood
        split_ifs at hr <;> cases hr <;> exact copyOut_slice hlen hgood hc
  | @update t x c rest collector hpc hupdate =>
      refine hkeep rfl (fun _ _ _ => Pc.resume_ne_fail) fun c' r hr hc => ?_
      rw [failure, Function.update_self, hpc]
      refine h.replies t c' r ?_ hc
      rw [hpc, ← Pc.reply_resume]
      exact hr
  | @pushOut t x c rest collector gone hpc hupdate =>
      refine hkeep rfl (by simp) fun c' r hr hc => ?_
      rw [failure, Function.update_self, hpc]
      refine h.replies t c' r ?_ hc
      rw [hpc]
      exact Pc.reply_evict.symm.trans hr
  | @evict t x c rest gone hpc =>
      refine hkeep rfl (fun _ _ _ => Pc.resume_ne_fail) fun c' r hr hc => ?_
      rw [failure, Function.update_self, hpc]
      refine h.replies t c' r ?_ hc
      rw [hpc, Pc.reply_evict, ← Pc.reply_resume]
      exact hr
  | @fail t x c e err hpc =>
      refine hkeep rfl (by simp) fun c' r hr hc => .inr ?_
      cases hr
      rw [failure, Function.update_self, hpc]
      exact h.failing t c e err hpc

-- ============================================================ all runs

/-- What holds in every state of every run. -/
structure Inv (content : UInt32 → Bytes) (cacheSize : Nat)
    (s : SharedProvider σ × (Nat → Option ErrorCode)) : Prop where
  entries : ∃ key, Held key s.1 ∧ Valid content key s.1
  tracked : Tracked cacheSize s.1
  replied : Replied content s.1 s.2

/-- A run, with `failure` as a history variable. -/
def runNoting (backing : Backing σ ι) (fresh : Nat → Mem) (store : σ)
    (cacheSize : Nat) (as : List (Action ι)) :
    Option (SharedProvider σ × (Nat → Option ErrorCode)) :=
  Machine.run (Machine.noted (step backing fresh) (failure backing))
    (new fresh store cacheSize, fun _ => none) as

/-- No call is in flight. -/
def Quiescent (s : SharedProvider σ) : Prop :=
  ∀ u, (s.threads u).resting

/-- The new provider. -/
theorem inv_new (store : σ) (hsize : 0 < cacheSize) :
    Inv content cacheSize (new fresh store cacheSize, fun _ => none) := by
  refine ⟨⟨fun _ => 0, ⟨?_, ?_, ?_⟩, ⟨?_, ?_, ?_⟩⟩,
    ⟨⟨[], LruCollector.tracks_new hsize⟩, rfl, ?_, ?_⟩, ⟨?_, ?_⟩⟩ <;>
    simp [new]

/-- A step keeps all that is known of cache, entries and replies. -/
theorem inv_step (hlen : ∀ id, (content id).length = chunkSizeBytes)
    (hsteady : Steady content backing)
    {s s' : SharedProvider σ × (Nat → Option ErrorCode)} {a : Action ι}
    (h : Inv content cacheSize s)
    (hs : Machine.noted (step backing fresh) (failure backing) s a
      = some s') :
    Inv content cacheSize s' := by
  obtain ⟨hstep, hnote⟩ := Machine.noted_eq_some.1 hs
  obtain ⟨key, hheld, hvalid⟩ := h.entries
  have hmoves := moves_of_step hstep
  refine ⟨⟨_, held_step hheld hmoves, valid_step hsteady hvalid hheld hmoves⟩,
    tracked_step h.tracked hmoves, ?_⟩
  rw [← hnote]
  exact replied_step hlen h.replied hheld hvalid hmoves

/-- After any interleaving all this holds. -/
theorem inv_run (hlen : ∀ id, (content id).length = chunkSizeBytes)
    (hsteady : Steady content backing) (hsize : 0 < cacheSize) {store : σ}
    {as : List (Action ι)} {s : SharedProvider σ × (Nat → Option ErrorCode)}
    (h : runNoting backing fresh store cacheSize as = some s) :
    Inv content cacheSize s :=
  Machine.run_invariant (fun _ _ _ hinv hs => inv_step hlen hsteady hinv hs)
    as _ s (inv_new store hsize) h

/-- With no call in flight, what is in the map is in the queue, free, and
whole. -/
theorem Inv.quiescent {s : SharedProvider σ × (Nat → Option ErrorCode)}
    (h : Inv content cacheSize s) (hq : Quiescent s.1) {id : UInt32} {e : Nat}
    (he : s.1.entries id = some e) :
    id ∈ s.1.collector.ids ∧ (s.1.slot e).owner = none
      ∧ Good content id (s.1.slot e).entry := by
  have hnot : ¬ Filled s.1 e := by
    rintro ⟨u, hu⟩
    rw [Pc.filling_of_resting (hq u)] at hu
    cases hu
  obtain ⟨key, hheld, hvalid⟩ := h.entries
  refine ⟨?_, ?_, ?_⟩
  · refine (h.tracked.tracked id (by rw [he]; rfl)).resolve_right ?_
    rintro ⟨u, hu | hu⟩
    · rw [Pc.settling_of_resting (hq u)] at hu
      cases hu
    · rw [Pc.evicting_of_resting (hq u)] at hu
      cases hu
  · cases howner : (s.1.slot e).owner with
    | none => rfl
    | some u =>
        have hu := (hheld.owner u e).1 howner
        rw [Pc.owning_of_resting (hq u)] at hu
        cases hu
  · obtain ⟨hlt, hkey⟩ := hheld.mapped id e he
    rw [← hkey]
    exact (hvalid.good e hlt
      ((hvalid.present id e he).resolve_right hnot)).resolve_right hnot

/-- At most `cache_size` ids are in the map. -/
theorem Inv.bounded {s : SharedProvider σ × (Nat → Option ErrorCode)}
    (h : Inv content cacheSize s) (hq : Quiescent s.1) (ids : Finset UInt32)
    (hids : ∀ id ∈ ids, (s.1.entries id).isSome) : ids.card ≤ cacheSize := by
  obtain ⟨used, htracks⟩ := h.tracked.collector
  have hsub : ids ⊆ s.1.collector.ids.toFinset := by
    intro id hid
    obtain ⟨e, he⟩ := Option.isSome_iff_exists.1 (hids id hid)
    exact List.mem_toFinset.2 (h.quiescent hq he).1
  calc ids.card ≤ s.1.collector.ids.toFinset.card := Finset.card_le_card hsub
    _ ≤ s.1.collector.ids.length := List.toFinset_card_le _
    _ ≤ s.1.collector.size := htracks.length_le
    _ = cacheSize := h.tracked.size

/-- A thread in a call that waits for no mutex has a next step. -/
theorem stepThread_defined (hin : (s.threads t).resting = false)
    (hwait : ∀ c e, s.threads t ≠ .wait c e)
    (hupdate : ∀ c rest, s.threads t ≠ .update c rest) (x : ι) :
    (s.stepThread backing fresh t x).isSome := by
  unfold stepThread
  cases hpc : s.threads t with
  | idle | done c r =>
      rw [hpc] at hin
      cases hin
  | lookup c =>
      dsimp only
      split <;> rfl
  | wait c e => exact absurd hpc (hwait c e)
  | check c e =>
      dsimp only
      split <;> rfl
  | update c rest => exact absurd hpc (hupdate c rest)
  | replace c e | load c e | fetch c e | reload c e | release c e
  | copy c e hit | evict c rest gone | fail c e err => rfl

/-- A thread that holds a mutex waits for none. -/
theorem stepThread_of_holds
    (hholds : (s.threads t).owning.isSome ∨ (s.threads t).evicting.isSome)
    (x : ι) :
    (s.threads t).resting = false
      ∧ (s.stepThread backing fresh t x).isSome := by
  have hin : (s.threads t).resting = false := by
    refine Bool.eq_false_iff.2 fun hrest => ?_
    rw [Pc.owning_of_resting hrest, Pc.evicting_of_resting hrest] at hholds
    simp at hholds
  refine ⟨hin, stepThread_defined hin ?_ ?_ x⟩
  · intro c e hpc
    simp [hpc] at hholds
  · intro c rest hpc
    simp [hpc] at hholds

-- ========================================================== no deadlock

/-- What holds whatever the store and the network answer. -/
structure Live (cacheSize : Nat) (s : SharedProvider σ) : Prop where
  held : ∃ key, Held key s
  tracked : Tracked cacheSize s

/-- The new provider is live. -/
theorem live_new (store : σ) (hsize : 0 < cacheSize) :
    Live cacheSize (new fresh store cacheSize) := by
  refine ⟨⟨fun _ => 0, ⟨?_, ?_, ?_⟩⟩,
    ⟨⟨[], LruCollector.tracks_new hsize⟩, rfl, ?_, ?_⟩⟩ <;> simp [new]

/-- A step of any thread keeps it so. -/
theorem live_step (h : Live cacheSize s)
    (hs : step backing fresh s a = some s') : Live cacheSize s' := by
  obtain ⟨key, hheld⟩ := h.held
  have hmoves := moves_of_step hs
  exact ⟨⟨_, held_step hheld hmoves⟩, tracked_step h.tracked hmoves⟩

/-- There is no deadlock: while a call is in flight, some thread in a call
has a next step. -/
theorem Live.progress (h : Live cacheSize s) (hbusy : ¬ Quiescent s)
    (x : ι) :
    ∃ u, (s.threads u).resting = false
      ∧ (s.stepThread backing fresh u x).isSome := by
  obtain ⟨u, hu⟩ := not_forall.1 hbusy
  have hu : (s.threads u).resting = false := by simpa using hu
  by_cases hwait : ∃ c e, s.threads u = .wait c e
  · obtain ⟨c, e, hpc⟩ := hwait
    cases howner : (s.slot e).owner with
    | none =>
        refine ⟨u, hu, ?_⟩
        rw [stepThread, hpc]
        simp only [howner]
        rfl
    | some v =>
        obtain ⟨key, hheld⟩ := h.held
        have hv := (hheld.owner v e).1 howner
        exact ⟨v, stepThread_of_holds
          (.inl (Option.isSome_iff_exists.2 ⟨e, hv⟩)) x⟩
  · by_cases hupdate : ∃ c rest, s.threads u = .update c rest
    · obtain ⟨c, rest, hpc⟩ := hupdate
      cases hupdating : s.updating with
      | none =>
          obtain ⟨used, htracks⟩ := h.tracked.collector
          obtain ⟨c', hupdate, -⟩ := htracks.update c.id
          refine ⟨u, hu, ?_⟩
          rw [stepThread, hpc]
          simp only [hupdating, hupdate]
          cases Recency.evicted s.collector.size s.collector.ids c.id with
          | none => rfl
          | some gone => rfl
      | some v =>
          have hv := h.tracked.updating v hupdating
          exact ⟨v, stepThread_of_holds (.inr hv) x⟩
    · refine ⟨u, hu, stepThread_defined hu ?_ ?_ x⟩
      · exact fun c e hpc => hwait ⟨c, e, hpc⟩
      · exact fun c rest hpc => hupdate ⟨c, rest, hpc⟩

-- ============================================= a call that runs alone

/-- Thread `t` gets from one state to the other by itself. -/
def Reaches (backing : Backing σ ι) (fresh : Nat → Mem) (t : Nat) (x : ι)
    (s s' : SharedProvider σ) : Prop :=
  ∃ n, Machine.run (step backing fresh) s (List.replicate n (.step t x))
    = some s'

variable {x : ι} {c : ReadCall} {rest : Rest}

/-- One step of the thread. -/
theorem Reaches.single
    (hs : s.stepThread backing fresh t x = some s') :
    Reaches backing fresh t x s s' := by
  refine ⟨1, ?_⟩
  rw [List.replicate_one, Machine.run, step, hs]
  rfl

/-- Steps of the thread one after the other. -/
theorem Reaches.trans {s₁ : SharedProvider σ}
    (h : Reaches backing fresh t x s s₁)
    (h₁ : Reaches backing fresh t x s₁ s') :
    Reaches backing fresh t x s s' := by
  obtain ⟨n, hn⟩ := h
  obtain ⟨m, hm⟩ := h₁
  refine ⟨n + m, ?_⟩
  rw [List.replicate_add, Machine.run_append, hn]
  exact hm

variable (backing fresh) in
/-- With the collector free, an update of it goes through. -/
theorem reaches_resume {used : List UInt32}
    (htracks : s.collector.Tracks used) (hfree : s.updating = none)
    (hpc : s.threads t = .update c rest) (x : ι) :
    ∃ s', Reaches backing fresh t x s s'
      ∧ s'.threads t = rest.resume c := by
  obtain ⟨c', hupdate, -⟩ := htracks.update c.id
  cases hgone : Recency.evicted s.collector.size s.collector.ids c.id with
  | none =>
      rw [hgone] at hupdate
      have hstep : s.stepThread backing fresh t x
          = some ({ s with collector := c' }.goto t (rest.resume c)) := by
        rw [stepThread, hpc]
        simp only [hfree, hupdate]
      exact ⟨_, .single hstep, Function.update_self ..⟩
  | some gone =>
      rw [hgone] at hupdate
      have hstep : s.stepThread backing fresh t x
          = some ({ s with collector := c', updating := some t }.goto t
            (.evict c rest gone)) := by
        rw [stepThread, hpc]
        simp only [hfree, hupdate]
      generalize hs₁ : ({ s with
        collector := c', updating := some t } : SharedProvider σ).goto t
          (.evict c rest gone) = s₁ at hstep
      have hpc₁ : s₁.threads t = .evict c rest gone := by
        rw [← hs₁]
        exact Function.update_self ..
      have hstep₁ : s₁.stepThread backing fresh t x
          = some ({ s₁.setEntry gone none with updating := none }.goto t
            (rest.resume c)) := by
        rw [stepThread, hpc₁]
      exact ⟨_, .trans (.single hstep) (.single hstep₁),
        Function.update_self ..⟩

/-- The thread gets to an OK reply to the call by itself. -/
def Delivers (backing : Backing σ ι) (fresh : Nat → Mem) (t : Nat) (x : ι)
    (c : ReadCall) (s : SharedProvider σ) : Prop :=
  ∃ s' r, Reaches backing fresh t x s s' ∧ s'.threads t = .done c r
    ∧ r.err = .ok

/-- A call that delivers after a step delivers. -/
theorem Delivers.step {s₁ : SharedProvider σ}
    (hs : s.stepThread backing fresh t x = some s₁)
    (h : Delivers backing fresh t x c s₁) :
    Delivers backing fresh t x c s := by
  obtain ⟨s', r, hreaches, hpc, hok⟩ := h
  exact ⟨s', r, .trans (.single hs) hreaches, hpc, hok⟩

/-- From an entry that is free and not empty. -/
theorem delivers_hit {used : List UInt32} (htracks : s.collector.Tracks used)
    (hfree : s.updating = none) {e : Nat} (hpc : s.threads t = .wait c e)
    (howner : (s.slot e).owner = none) (hlen : 0 < (s.slot e).entry.len) :
    Delivers backing fresh t x c s := by
  have hacquire : s.stepThread backing fresh t x
      = some ((s.setOwner e (some t)).goto t (.check c e)) := by
    rw [stepThread, hpc]
    simp only [howner]
  refine .step hacquire ?_
  generalize hs₁ : (s.setOwner e (some t)).goto t (.check c e) = s₁
  have hpc₁ : s₁.threads t = .check c e := by
    rw [← hs₁]
    exact Function.update_self ..
  have hlen₁ : 0 < (s₁.slot e).entry.len := by
    rw [← hs₁]
    show 0 < ((s.setOwner e (some t)).slot e).entry.len
    rw [entry_setOwner]
    exact hlen
  have hcheck : s₁.stepThread backing fresh t x
      = some ((s₁.setOwner e none).goto t (.update c (.copy e))) := by
    rw [stepThread, hpc₁]
    simp only [if_pos hlen₁]
  refine .step hcheck ?_
  generalize hs₂ : (s₁.setOwner e none).goto t (.update c (.copy e)) = s₂
  have hpc₂ : s₂.threads t = .update c (.copy e) := by
    rw [← hs₂]
    exact Function.update_self ..
  have hcollector : s₂.collector = s.collector := by
    rw [← hs₂, ← hs₁]
    rfl
  have hupdating : s₂.updating = none := by
    rw [← hs₂, ← hs₁]
    exact hfree
  obtain ⟨s₃, hreaches, hpc₃⟩ := reaches_resume backing fresh
    (hcollector ▸ htracks) hupdating hpc₂ x
  have hcopy : s₃.stepThread backing fresh t x
      = some (s₃.goto t (.done c (ChunkProvider.copyOut (s₃.slot e).entry
        c.offset c.len))) := by
    rw [stepThread, hpc₃]
    rfl
  exact ⟨_, _, .trans hreaches (.single hcopy), Function.update_self .., rfl⟩

/-- From an entry the thread is to load, if the store has the chunk. -/
theorem delivers_load {used : List UInt32} (htracks : s.collector.Tracks used)
    (hfree : s.updating = none) {e : Nat} (hpc : s.threads t = .load c e)
    (hok : (backing.readChunk s.store x c.id (s.slot e).entry).1 = .ok) :
    Delivers backing fresh t x c s := by
  have hload : s.stepThread backing fresh t x
      = some (s.readInto backing t x c e (.loaded c e)) := by
    rw [stepThread, hpc]
  refine .step hload ?_
  generalize hs₁ : s.readInto backing t x c e (.loaded c e) = s₁
  have hpc₁ : s₁.threads t = .release c e := by
    rw [← hs₁]
    refine (Function.update_self ..).trans ?_
    exact if_pos hok
  have hrelease : s₁.stepThread backing fresh t x
      = some ((s₁.setOwner e none).goto t (.copy c e false)) := by
    rw [stepThread, hpc₁]
  refine .step hrelease ?_
  generalize hs₂ : (s₁.setOwner e none).goto t (.copy c e false) = s₂
  have hpc₂ : s₂.threads t = .copy c e false := by
    rw [← hs₂]
    exact Function.update_self ..
  have hcopy : s₂.stepThread backing fresh t x
      = some (s₂.goto t (.update c (.reply (ChunkProvider.copyOut
        (s₂.slot e).entry c.offset c.len)))) := by
    rw [stepThread, hpc₂]
    rfl
  refine .step hcopy ?_
  have hcollector : s₂.collector = s.collector := by
    rw [← hs₂, ← hs₁]
    rfl
  have hupdating : s₂.updating = none := by
    rw [← hs₂, ← hs₁]
    exact hfree
  obtain ⟨s₃, hreaches, hpc₃⟩ := reaches_resume backing fresh
    (s := s₂.goto t (.update c (.reply (ChunkProvider.copyOut
      (s₂.slot e).entry c.offset c.len))))
    (hcollector ▸ htracks) hupdating (Function.update_self ..) x
  exact ⟨_, _, hreaches, hpc₃, rfl⟩

/-- With no call in flight, a call that runs alone is answered if its
chunk is cached, or if the store has it now. -/
theorem Inv.answers {s : SharedProvider σ × (Nat → Option ErrorCode)}
    (hlen : ∀ id, (content id).length = chunkSizeBytes)
    (hsteady : Steady content backing) (h : Inv content cacheSize s)
    (hq : Quiescent s.1) (hc : InChunk c) (t : Nat)
    (hload : s.1.entries c.id = none →
      (backing.readChunk s.1.store x c.id
        { data := fresh s.1.next, len := 0 }).1 = .ok) :
    ∃ n s', Machine.run (step backing fresh) s.1
        (.call t c :: List.replicate n (.step t x)) = some s'
      ∧ s'.threads t = .done c (slice content c) := by
  obtain ⟨used, htracks⟩ := h.tracked.collector
  have hfree : s.1.updating = none := by
    cases hu : s.1.updating with
    | none => rfl
    | some u =>
        have hevicting := h.tracked.updating u hu
        rw [Pc.evicting_of_resting (hq u)] at hevicting
        cases hevicting
  have hchunk := chunkSizeBytes_eq
  have hc' : c.offset + c.len ≤ chunkSizeBytes := hc
  have hcall : step backing fresh s.1 (.call t c)
      = some (s.1.goto t (.lookup c)) := by
    rw [step, if_pos (hq t), uint32_of_lt (by omega), if_neg (by omega)]
  generalize hs₁ : s.1.goto t (.lookup c) = s₁ at hcall
  have hpc₁ : s₁.threads t = .lookup c := by
    rw [← hs₁]
    exact Function.update_self ..
  have hdelivers : Delivers backing fresh t x c s₁ := by
    cases he : s.1.entries c.id with
    | none =>
        have hlookup : s₁.stepThread backing fresh t x
            = some ((s₁.insertEntry fresh t c.id).goto t
              (.load c s₁.next)) := by
          have he₁ : s₁.entries c.id = none := by
            rw [← hs₁]
            exact he
          rw [stepThread, hpc₁]
          simp only [he₁]
        have htracks₁ : s₁.collector.Tracks used := by
          rw [← hs₁]
          exact htracks
        refine .step hlookup (delivers_load htracks₁ ?_
          (Function.update_self ..) ?_)
        · rw [← hs₁]
          exact hfree
        · rw [← hs₁]
          show (backing.readChunk s.1.store x c.id
            (Function.update s.1.slot s.1.next _ s.1.next).entry).1 = .ok
          rw [Function.update_self]
          exact hload he
    | some e =>
        have hlookup : s₁.stepThread backing fresh t x
            = some (s₁.goto t (.wait c e)) := by
          have he₁ : s₁.entries c.id = some e := by
            rw [← hs₁]
            exact he
          rw [stepThread, hpc₁]
          simp only [he₁]
        obtain ⟨-, howner, hgood⟩ := h.quiescent hq he
        have htracks₁ : s₁.collector.Tracks used := by
          rw [← hs₁]
          exact htracks
        refine .step hlookup (delivers_hit htracks₁ ?_
          (Function.update_self ..) ?_ ?_)
        · rw [← hs₁]
          exact hfree
        · rw [← hs₁]
          exact howner
        · rw [← hs₁]
          exact hgood.pos
  obtain ⟨s', r, ⟨n, hn⟩, hpc, hok⟩ := hdelivers
  have hrun : Machine.run (step backing fresh) s.1
      (.call t c :: List.replicate n (.step t x)) = some s' := by
    rw [Machine.run, hcall]
    exact hn
  refine ⟨n, s', hrun, ?_⟩
  obtain ⟨f', hnoted⟩ : ∃ f', Machine.run
      (Machine.noted (step backing fresh) (failure backing)) (s.1, s.2)
      (.call t c :: List.replicate n (.step t x)) = some (s', f') :=
    (Machine.run_noted _ s.1 s.2 s').1 hrun
  have hinv := Machine.run_invariant
    (fun _ _ _ hinv hs => inv_step hlen hsteady hinv hs) _ s _ h hnoted
  rcases hinv.replied.replies t c r (by rw [hpc]; rfl) hc with hr | hr
  · rw [hpc, hr]
  · exact absurd hok hr.1

/-- In every state of every run: a call inside of a chunk that returned OK
delivered what it asked for, and one that failed met the error itself. With
no call in flight, what is in the map is in the collector's queue, free and
not empty, at most `cache_size` ids are, and a call that runs next is
answered unless the store fails it: no failure is remembered. -/
theorem cache_transparent_bounded
    (hlen : ∀ id, (content id).length = chunkSizeBytes)
    (hsteady : Steady content backing) (hsize : 0 < cacheSize) {store : σ}
    {as : List (Action ι)} {f : Nat → Option ErrorCode}
    (h : runNoting backing fresh store cacheSize as = some (s, f)) :
    (∀ u c r, s.threads u = .done c r → InChunk c →
        (r.err = .ok → r = slice content c)
          ∧ (r.err ≠ .ok → f u = some r.err))
      ∧ (Quiescent s →
        (∀ id e, s.entries id = some e → id ∈ s.collector.ids
            ∧ (s.slot e).owner = none ∧ 0 < (s.slot e).entry.len)
        ∧ (∀ ids : Finset UInt32, (∀ id ∈ ids, (s.entries id).isSome) →
            ids.card ≤ cacheSize)
        ∧ ∀ t c x, InChunk c →
            (s.entries c.id = none → (backing.readChunk s.store x c.id
              { data := fresh s.next, len := 0 }).1 = .ok) →
            ∃ n s', Machine.run (step backing fresh) s
                (.call t c :: List.replicate n (.step t x)) = some s'
              ∧ s'.threads t = .done c (slice content c)) := by
  have hinv := inv_run hlen hsteady hsize h
  refine ⟨fun u c r hpc hc => ?_, fun hq => ⟨fun id e he => ?_,
    hinv.bounded hq, fun t c x hc hload =>
      hinv.answers hlen hsteady hq hc t hload⟩⟩
  · have hreply := hinv.replied.replies u c r (by rw [hpc]; rfl) hc
    constructor
    · intro hok
      exact hreply.resolve_right fun hr => hr.1 hok
    · intro hfailed
      refine (hreply.resolve_left ?_).2
      rintro rfl
      exact hfailed rfl
  · obtain ⟨hmem, howner, hgood⟩ := hinv.quiescent hq he
    exact ⟨hmem, howner, hgood.pos⟩

/-- A store whose chunks are full of `b`. -/
def uniform (b : UInt8) : Backing Unit Unit :=
  { readChunk := fun _ _ _ _ =>
      (.ok, { data := fun _ => b, len := chunkSizeBytes }, ())
    fetchChunk := fun _ _ _ => (.notFound, ()) }

/-- A store that gives the same chunk for every id is steady. -/
theorem uniform_steady (b : UInt8) :
    Steady (fun _ => List.replicate chunkSizeBytes b) (uniform b) := by
  intro store x id entry _
  refine ⟨rfl, List.eq_replicate_iff.2 ⟨Mem.length_read _ _ _, ?_⟩⟩
  intro c hc
  obtain ⟨i, hi, rfl⟩ := List.mem_iff_getElem.1 hc
  exact Mem.getElem_read _ _ _ i hi

/-- Two threads at one chunk, through a cache for one: the second waits
until the first has loaded it. -/
def twoCalls : List (Action Unit) :=
  [.call 0 ⟨7, 0, 4⟩, .step 0 (), .call 1 ⟨7, 2, 4⟩, .step 1 (), .step 0 (),
    .step 0 (), .step 1 (), .step 1 (), .step 0 (), .step 1 (), .step 1 (),
    .step 0 ()]

/-- Two calls that overlap, over a cache of one chunk, run to their ends. -/
theorem cache_two_threads :
    ∃ s f r, runNoting (uniform 7) (fun _ _ => 0) () 1 twoCalls
        = some (s, f)
      ∧ Quiescent s ∧ s.threads 1 = .done ⟨7, 2, 4⟩ r
      ∧ r = slice (fun _ => List.replicate chunkSizeBytes 7) ⟨7, 2, 4⟩
      ∧ (∀ ids : Finset UInt32, (∀ id ∈ ids, (s.entries id).isSome) →
        ids.card ≤ 1) := by
  obtain ⟨s, f, r, hrun, hquiet, hpc, hok⟩ : ∃ s f r,
      runNoting (uniform 7) (fun _ _ => 0) () 1 twoCalls = some (s, f)
      ∧ Quiescent s ∧ s.threads 1 = .done ⟨7, 2, 4⟩ r ∧ r.err = .ok := by
    refine ⟨_, _, _, rfl, fun u => ?_, rfl, rfl⟩
    match u with
    | 0 => rfl
    | 1 => rfl
    | _ + 2 => rfl
  obtain ⟨hreplies, hrest⟩ := cache_transparent_bounded
    (fun _ => List.length_replicate) (uniform_steady 7) Nat.one_pos hrun
  have hin : InChunk ⟨7, 2, 4⟩ := by
    show 2 + 4 ≤ chunkSizeBytes
    decide
  exact ⟨s, f, r, hrun, hquiet, hpc, (hreplies 1 _ r hpc hin).1 hok,
    (hrest hquiet).2.1⟩

end SharedProvider

end Distfs

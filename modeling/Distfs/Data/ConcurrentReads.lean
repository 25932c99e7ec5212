/-
Reads of several threads: what they deliver, and that they end.

A step of the provider moves one thread, within its call, and closer to
its end (`Moves.thread`). So a thread's loop is untouched by the others: a
read that ends OK has delivered the flat bytes, and one that fails has met
an error of the store or the network itself (`reads_transparent`). That is
so if the store has whole chunks that never change.

Every read ends (`reads_end`), whatever the store and the network answer.
Each turn of the loop leaves at least a byte less to read, so that a thread
has only so many steps of its own (`left_self`). And while a read is under
way some thread can go on: none waits but for a mutex that another one
holds and can give back (`Placed.progress`).
-/
import Distfs.Data.SharedReads

namespace Distfs

open SharedProvider

-- ===================================================== the provider's steps

/-- The call a thread is in, or has come back from. -/
@[simp] def Pc.call : Pc → Option ReadCall
  | .idle => none
  | .lookup c | .wait c _ | .check c _ | .replace c _ | .load c _
  | .fetch c _ | .reload c _ | .release c _ | .copy c _ _ | .update c _
  | .evict c _ _ | .fail c _ _ | .done c _ => some c

/-- How many steps a call can still take, where none waits. -/
@[simp] def Pc.rank : Pc → Nat
  | .idle | .done _ _ => 0
  | .copy _ _ true | .evict _ (.reply _) _ | .fail _ _ _ => 1
  | .evict _ (.copy _) _ | .update _ (.reply _) => 2
  | .update _ (.copy _) | .copy _ _ false => 3
  | .release _ _ => 4
  | .reload _ _ => 5
  | .fetch _ _ => 6
  | .load _ _ => 7
  | .replace _ _ => 8
  | .check _ _ => 9
  | .wait _ _ => 10
  | .lookup _ => 11

namespace SharedProvider

section Calls

variable {σ ι : Type} {backing : Backing σ ι} {fresh : Nat → Mem}
  {s s' : SharedProvider σ} {a : Action ι} {c : ReadCall} {e : Nat}
  {err : ErrorCode} {rest : Rest}

theorem call_loaded :
    (Pc.loaded c e err).call = some c ∧ (Pc.loaded c e err).rank < 7 := by
  unfold Pc.loaded
  split_ifs <;> simp

theorem call_fetched :
    (Pc.fetched c e err).call = some c ∧ (Pc.fetched c e err).rank < 6 := by
  unfold Pc.fetched
  split_ifs <;> simp

theorem call_reloaded :
    (Pc.reloaded c e err).call = some c ∧ (Pc.reloaded c e err).rank < 5 := by
  unfold Pc.reloaded
  split_ifs <;> simp

theorem call_resume {gone : UInt32} :
    (rest.resume c).call = some c
      ∧ (rest.resume c).rank < (Pc.evict c rest gone).rank
      ∧ (Pc.evict c rest gone).rank < (Pc.update c rest).rank := by
  cases rest <;> simp [Rest.resume]

/-- The thread that acts. -/
def Action.thread : Action ι → Nat
  | .call t _ => t
  | .step t _ => t

/-- The call it is in afterwards. -/
def callAfter (s : SharedProvider σ) : Action ι → Option ReadCall
  | .call _ c => some c
  | .step t _ => (s.threads t).call

/-- How many steps it could take before. -/
def rankBefore (s : SharedProvider σ) : Action ι → Nat
  | .call _ _ => 12
  | .step t _ => (s.threads t).rank

/-- A step moves one thread, and on in its call. -/
theorem Moves.thread (h : Moves backing fresh s a s') :
    ∃ pc, s'.threads = Function.update s.threads a.thread pc
      ∧ pc.call = callAfter s a ∧ pc.rank < rankBefore s a := by
  cases h with
  | refuse hpc hrange => exact ⟨_, rfl, rfl, by simp [rankBefore]⟩
  | start hpc => exact ⟨_, rfl, rfl, by simp [rankBefore]⟩
  | found hpc hentry | missed hpc hentry | acquire hpc hfree
  | hit hpc hlen | empty hpc hlen =>
      exact ⟨_, rfl, by simp [callAfter, hpc], by simp [rankBefore, hpc]⟩
  | replace hpc | release hpc | fail hpc =>
      exact ⟨_, rfl, by simp [callAfter, hpc], by simp [rankBefore, hpc]⟩
  | load hpc =>
      refine ⟨_, rfl, ?_⟩
      simp only [callAfter, rankBefore, hpc]
      exact call_loaded
  | fetch hpc hr =>
      refine ⟨_, rfl, ?_⟩
      simp only [callAfter, rankBefore, hpc]
      exact call_fetched
  | reload hpc =>
      refine ⟨_, rfl, ?_⟩
      simp only [callAfter, rankBefore, hpc]
      exact call_reloaded
  | @copy t x c e hit hpc =>
      refine ⟨_, rfl, ?_⟩
      simp only [callAfter, rankBefore, hpc]
      cases hit <;> simp
  | update hpc hupdate =>
      refine ⟨_, rfl, ?_⟩
      simp only [callAfter, rankBefore, hpc]
      obtain ⟨hcall, hrank, hrank'⟩ := @call_resume _ _ 0
      exact ⟨hcall, hrank.trans hrank'⟩
  | pushOut hpc hupdate =>
      refine ⟨_, rfl, ?_⟩
      simp only [callAfter, rankBefore, hpc]
      exact ⟨rfl, call_resume.2.2⟩
  | @evict t x c rest gone hpc =>
      refine ⟨_, rfl, ?_⟩
      simp only [callAfter, rankBefore, hpc]
      obtain ⟨hcall, hrank, -⟩ := @call_resume c rest gone
      exact ⟨hcall, hrank⟩

end Calls

end SharedProvider

-- ============================================================= the steps

namespace SharedReads

variable {σ ι : Type} {backing : Backing σ ι} {fresh : Nat → Mem}
  {content : UInt32 → Bytes} {cacheSize : Nat} {s s' : SharedReads σ}
  {f : Nat → Option ErrorCode} {t : Nat} {a : Action ι}

/-- A thread is in a read. -/
def Reader.underway : Reader → Bool
  | .turn _ | .calling _ => true
  | _ => false

/-- The action goes on with a read. -/
def Action.goesOn : Action ι → Bool
  | .read _ _ _ => false
  | _ => true

/-- The thread that acts. -/
def Action.thread : Action ι → Nat
  | .read t _ _ | .turn t | .step t _ | .reply t _ => t

variable (backing fresh) in
/-- What a step can do. -/
inductive Moves (s : SharedReads σ) : Action ι → SharedReads σ → Prop
  | read {t offset size} (hr : Reader.underway (s.readers t) = false) :
      Moves s (.read t offset size) (s.goto t (.turn (.start offset size)))
  | call {t r p} (hr : s.readers t = .turn r) (hpos : 0 < r.length)
      (hp : SharedProvider.step backing fresh s.provider (.call t r.call)
        = some p) :
      Moves s (.turn t) ({ s with provider := p }.goto t (.calling r))
  | finish {t r} (hr : s.readers t = .turn r) (hdone : r.length = 0) :
      Moves s (.turn t) (s.goto t (.finished r.offset r.size .ok r.bytes))
  | step {t x r p} (hr : s.readers t = .calling r)
      (hp : SharedProvider.step backing fresh s.provider (.step t x)
        = some p) :
      Moves s (.step t x) { s with provider := p }
  | reply {t unset r c reply} (hr : s.readers t = .calling r)
      (hpc : s.provider.threads t = .done c reply) :
      Moves s (.reply t unset) (s.goto t (handle r unset reply))

/-- A step that is possible is one of the moves. -/
theorem moves_of_step (h : step backing fresh s a = some s') :
    Moves backing fresh s a s' := by
  cases a with
  | read t offset size =>
      simp only [step] at h
      split at h
      · next hr =>
        cases h
        exact .read (by rw [hr]; rfl)
      · next hr =>
        cases h
        exact .read (by rw [hr]; rfl)
      · cases h
  | turn t =>
      simp only [step] at h
      split at h
      · next r hr =>
        split at h
        · next hpos =>
          split at h
          · cases h
          · next p hp =>
            cases h
            exact .call hr hpos hp
        · next hdone =>
          cases h
          exact .finish hr (by omega)
      · cases h
  | step t x =>
      simp only [step] at h
      split at h
      · next r hr =>
        split at h
        · cases h
        · next p hp =>
          cases h
          exact .step hr hp
      · cases h
  | reply t unset =>
      simp only [step] at h
      split at h
      · next r c reply hr hpc =>
        cases h
        exact .reply hr hpc
      · cases h

@[simp] theorem readers_goto_self (r : Reader) :
    (s.goto t r).readers t = r := by
  show Function.update s.readers t r t = r
  rw [Function.update_self]

/-- A loop that goes on leaves the provider's threads. -/
theorem threads_goto (r : Reader) :
    (s.goto t r).provider.threads = s.provider.threads := rfl

/-- A loop that goes on leaves the loops of the others. -/
theorem readers_goto_of_ne {u : Nat} (hu : u ≠ t) (r : Reader) :
    (s.goto t r).readers u = s.readers u := Function.update_of_ne hu _ _

/-- What a step of the provider does to its threads. -/
theorem provider_step {p p' : SharedProvider σ} {a : SharedProvider.Action ι}
    (hstep : SharedProvider.step backing fresh p a = some p') :
    (∀ u, u ≠ a.thread → p'.threads u = p.threads u)
      ∧ (p'.threads a.thread).call = callAfter p a
      ∧ (p'.threads a.thread).rank < rankBefore p a := by
  obtain ⟨pc, hthreads, hcall, hrank⟩ :=
    (SharedProvider.moves_of_step hstep).thread
  rw [hthreads, Function.update_self]
  exact ⟨fun u hu => Function.update_of_ne hu _ _, hcall, hrank⟩

/-- A step leaves the other threads where they are. -/
theorem Moves.others (h : Moves backing fresh s a s') {u : Nat}
    (hu : u ≠ a.thread) :
    s'.readers u = s.readers u
      ∧ s'.provider.threads u = s.provider.threads u := by
  cases h with
  | read hr => exact ⟨readers_goto_of_ne hu _, rfl⟩
  | call hr hpos hp =>
      exact ⟨readers_goto_of_ne hu _, (provider_step hp).1 u hu⟩
  | finish hr hdone => exact ⟨readers_goto_of_ne hu _, rfl⟩
  | step hr hp => exact ⟨rfl, (provider_step hp).1 u hu⟩
  | reply hr hpc => exact ⟨readers_goto_of_ne hu _, rfl⟩

-- ============================================================ no deadlock

/-- A thread that is at `pc` within the provider is in its call exactly
while the loop is. -/
def At (pc : Pc) : Reader → Prop
  | .calling r => pc.call = some r.call ∧ 0 < r.length
  | _ => pc.resting

/-- Where the threads are. -/
structure Placed (cacheSize : Nat) (s : SharedReads σ) : Prop where
  provider : Live cacheSize s.provider
  threads : ∀ u, At (s.provider.threads u) (s.readers u)

/-- Between two calls a loop may be wherever `handle` takes it. -/
theorem at_handle {pc : Pc} (hrest : pc.resting) (r : ReadLoop) (unset : Nat)
    (reply : ChunkReply) : At pc (handle r unset reply) := by
  unfold handle
  split_ifs <;> exact hrest

/-- A thread that is where its loop expects it. -/
theorem at_goto {r : Reader} (h : At (s.provider.threads t) r) :
    At ((s.goto t r).provider.threads t) ((s.goto t r).readers t) := by
  rw [threads_goto, readers_goto_self]
  exact h

/-- A thread with no read under way is in no call. -/
theorem at_of_not_underway {pc : Pc} {r : Reader} (h : At pc r)
    (hr : Reader.underway r = false) : pc.resting := by
  cases r with
  | calling r => cases hr
  | idle => exact h
  | turn r => exact h
  | finished offset size err bytes => exact h

/-- The thread that acts is in its call exactly if its loop is. -/
theorem Moves.at_self (h : Moves backing fresh s a s')
    (hat : At (s.provider.threads a.thread) (s.readers a.thread)) :
    At (s'.provider.threads a.thread) (s'.readers a.thread) := by
  cases h with
  | read hr => exact at_goto (at_of_not_underway hat hr)
  | @call t r p hr hpos hp =>
      exact at_goto (r := .calling r) ⟨(provider_step hp).2.1, hpos⟩
  | @finish t r hr hdone =>
      have hrest : At (s.provider.threads t) (s.readers t) := hat
      rw [hr] at hrest
      exact at_goto hrest
  | @step t x r p hr hp =>
      have hcall : At (s.provider.threads t) (s.readers t) := hat
      show At (p.threads t) (s.readers t)
      rw [hr] at hcall ⊢
      exact ⟨(provider_step hp).2.1.trans hcall.1, hcall.2⟩
  | reply hr hpc => exact at_goto (at_handle (by rw [hpc]; rfl) _ _ _)

/-- The new machine is placed. -/
theorem placed_new (store : σ) (hsize : 0 < cacheSize) :
    Placed cacheSize (new fresh store cacheSize) :=
  ⟨live_new store hsize, fun _ => show Pc.idle.resting = true from rfl⟩

/-- A step puts no thread where it cannot be. -/
theorem placed_step (h : Placed cacheSize s)
    (hs : step backing fresh s a = some s') : Placed cacheSize s' := by
  have hmoves := moves_of_step hs
  refine ⟨?_, fun u => ?_⟩
  · cases hmoves with
    | read hr => exact h.provider
    | call hr hpos hp => exact live_step h.provider hp
    | finish hr hdone => exact h.provider
    | step hr hp => exact live_step h.provider hp
    | reply hr hpc => exact h.provider
  · by_cases hu : u = a.thread
    · rw [hu]
      exact hmoves.at_self (h.threads a.thread)
    · obtain ⟨hreader, hthread⟩ := hmoves.others hu
      rw [hreader, hthread]
      exact h.threads u

/-- Any interleaving keeps the machine placed. -/
theorem placed_run {as : List (Action ι)} (h : Placed cacheSize s)
    (hs : Machine.run (step backing fresh) s as = some s') :
    Placed cacheSize s' :=
  Machine.run_invariant (fun _ _ _ hm => placed_step hm) as s s' h hs

/-- While a read is under way, some thread can go on with its own. -/
theorem Placed.progress (h : Placed cacheSize s)
    (hbusy : Reader.underway (s.readers t) = true) (x : ι) :
    ∃ a : Action ι, a.goesOn = true ∧ (step backing fresh s a).isSome := by
  have ht := h.threads t
  cases hr : s.readers t with
  | idle =>
      rw [hr] at hbusy
      cases hbusy
  | finished offset size err bytes =>
      rw [hr] at hbusy
      cases hbusy
  | turn r =>
      rw [hr] at ht
      have hrest : (s.provider.threads t).resting = true := ht
      refine ⟨.turn t, rfl, ?_⟩
      simp only [step, hr]
      split
      · simp only [SharedProvider.step, hrest, if_true]
        split
        · next hnone => split at hnone <;> cases hnone
        · rfl
      · rfl
  | calling r =>
      by_cases hquiet : Quiescent s.provider
      · -- the call of this thread has come back
        rw [hr] at ht
        rcases Pc.resting_cases (hquiet t) with hpc | ⟨c, reply, hpc⟩
        · rw [hpc] at ht
          cases ht.1
        · refine ⟨.reply t 0, rfl, ?_⟩
          simp only [step, hr, hpc]
          rfl
      · -- the thread that can go on is in a read of its own
        obtain ⟨u, hin, hu⟩ : ∃ u, (s.provider.threads u).resting = false
            ∧ (s.provider.stepThread backing fresh u x).isSome :=
          h.provider.progress hquiet x
        have hat := h.threads u
        cases hru : s.readers u with
        | calling r' =>
            refine ⟨.step u x, rfl, ?_⟩
            obtain ⟨p, hp⟩ := Option.isSome_iff_exists.1 hu
            have hp' : SharedProvider.step backing fresh s.provider
                (.step u x) = some p := hp
            simp only [step, hru, hp']
            rfl
        | idle | turn r' | finished offset size err bytes =>
            rw [hru] at hat
            have hrest : (s.provider.threads u).resting = true := hat
            rw [hrest] at hin
            cases hin

-- ========================================================== every read ends

/-- How many steps a read can still take. -/
def Reader.left (pc : Pc) : Reader → Nat
  | .idle | .finished _ _ _ _ => 0
  | .turn r => 14 * r.length + 1
  | .calling r => 14 * (r.length - 1) + 2 + pc.rank

/-- How many steps thread `t` can still take. -/
def left (s : SharedReads σ) (t : Nat) : Nat :=
  Reader.left (s.provider.threads t) (s.readers t)

/-- A turn of the loop leaves less to read. -/
theorem advance_lt {r : ReadLoop} (hpos : 0 < r.length) (bytes : Bytes) :
    (r.advance bytes).length ≤ r.length - 1 := by
  have := r.of.2
  show r.length - min r.length (chunkSizeBytes - r.of.1) ≤ r.length - 1
  omega

/-- A reply leaves a byte less to read at least, or ends the read. -/
theorem left_handle {r : ReadLoop} (hpos : 0 < r.length) (pc : Pc)
    (unset : Nat) (reply : ChunkReply) :
    Reader.left pc (handle r unset reply) < 14 * (r.length - 1) + 2 := by
  have hless := advance_lt hpos reply.bytes
  unfold handle
  split_ifs
  · exact Nat.succ_pos _
  · exact Nat.succ_pos _
  · show 14 * (r.advance reply.bytes).length + 1 < _
    omega

/-- What is left for a loop that goes on. -/
theorem left_goto_self (r : Reader) :
    (s.goto t r).left t = Reader.left (s.provider.threads t) r := by
  rw [left, threads_goto, readers_goto_self]

/-- The steps of the others take none of a thread's. -/
theorem Moves.left_of_ne (h : Moves backing fresh s a s') {u : Nat}
    (hu : u ≠ a.thread) : s'.left u = s.left u := by
  obtain ⟨hreader, hthread⟩ := h.others hu
  rw [left, left, hreader, hthread]

/-- A step that goes on with a read leaves less steps to it. -/
theorem Moves.left_self (h : Moves backing fresh s a s')
    (hat : At (s.provider.threads a.thread) (s.readers a.thread))
    (hgoes : a.goesOn = true) : s'.left a.thread < s.left a.thread := by
  cases h with
  | read hr => cases hgoes
  | @call t r p hr hpos hp =>
      have hrank : (p.threads t).rank < 12 := (provider_step hp).2.2
      have hleft : s.left t = 14 * r.length + 1 := by rw [left, hr]; rfl
      show (goto _ t (.calling r)).left t < s.left t
      rw [left_goto_self, hleft]
      show 14 * (r.length - 1) + 2 + (p.threads t).rank < _
      omega
  | @finish t r hr hdone =>
      have hleft : s.left t = 14 * r.length + 1 := by rw [left, hr]; rfl
      show (goto _ t _).left t < s.left t
      rw [left_goto_self, hleft]
      exact Nat.succ_pos _
  | @step t x r p hr hp =>
      have hrank : (p.threads t).rank < (s.provider.threads t).rank :=
        (provider_step hp).2.2
      show Reader.left (p.threads t) (s.readers t)
        < Reader.left (s.provider.threads t) (s.readers t)
      rw [hr]
      exact Nat.add_lt_add_left hrank _
  | @reply t unset r c reply hr hpc =>
      have hcall : At (s.provider.threads t) (s.readers t) := hat
      rw [hr] at hcall
      have hhandle := left_handle hcall.2 (s.provider.threads t) unset reply
      have hleft : s.left t = 14 * (r.length - 1) + 2
          + (s.provider.threads t).rank := by rw [left, hr]; rfl
      show (goto _ t _).left t < s.left t
      rw [left_goto_self, hleft]
      omega

/-- A thread that does not start a new read takes no more steps than it
has left. -/
theorem left_run (t : Nat) (as : List (Action ι)) :
    ∀ s : SharedReads σ, Placed cacheSize s →
      (∀ a ∈ as, a.thread = t → a.goesOn = true) →
      Machine.run (step backing fresh) s as = some s' →
      s'.left t + as.countP (fun a => a.thread = t) ≤ s.left t := by
  induction as with
  | nil =>
      intro s _ _ hrun
      cases hrun
      exact Nat.le_refl _
  | cons a as ih =>
      intro s h hgoes hrun
      rw [Machine.run] at hrun
      split at hrun
      · cases hrun
      · next m hstep =>
        have hrest := ih m (placed_step h hstep)
          (fun b hb => hgoes b (List.mem_cons_of_mem a hb)) hrun
        have hmoves := moves_of_step hstep
        by_cases ht : a.thread = t
        · have hless := hmoves.left_self (h.threads a.thread)
            (hgoes a List.mem_cons_self ht)
          rw [ht] at hless
          rw [List.countP_cons_of_pos (by simpa using ht)]
          omega
        · rw [List.countP_cons_of_neg (by simpa using ht),
            ← hmoves.left_of_ne (Ne.symm ht)]
          exact hrest

-- ====================================================== what is delivered

/-- What is known of a read where `failed` is the error its last load has
met. -/
def Sound (content : UInt32 → Bytes) (failed : Option ErrorCode) :
    Reader → Prop
  | .idle => True
  | .turn r | .calling r => Copied content r
  | .finished offset size err bytes =>
      (err = .ok → bytes = flatBytes content offset size)
        ∧ (err ≠ .ok → ∃ e, failed = some e
          ∧ (err = e ∨ err = .internalError))

/-- All reads are sound, and so is the provider. -/
structure Inv (content : UInt32 → Bytes) (cacheSize : Nat)
    (s : SharedReads σ × (Nat → Option ErrorCode)) : Prop where
  placed : Placed cacheSize s.1
  provider : SharedProvider.Inv content cacheSize (s.1.provider, s.2)
  sound : ∀ u, Sound content (s.2 u) (s.1.readers u)

/-- A reply is a slice, or the error of the read. -/
theorem sound_handle (hlen : ∀ id, (content id).length = chunkSizeBytes)
    {failed : Option ErrorCode} {r : ReadLoop} (hr : Copied content r)
    (hpos : 0 < r.length) {reply : ChunkReply}
    (hreply : reply = slice content r.call
      ∨ (reply.err ≠ .ok ∧ failed = some reply.err)) (unset : Nat) :
    Sound content failed (handle r unset reply) := by
  rcases hreply with rfl | ⟨herr, hfailed⟩
  · have hsize : (slice content r.call).readSize.getD unset = r.len := rfl
    have hok : (slice content r.call).err = .ok := rfl
    rw [handle, if_neg (not_not.2 hsize), if_neg (not_not.2 hok)]
    exact hr.advance hpos hlen
  · rw [handle]
    split
    · exact ⟨fun h => (by cases h), fun _ => ⟨_, hfailed, .inr rfl⟩⟩
    · exact ⟨fun h => absurd h herr, fun _ => ⟨_, hfailed, .inl rfl⟩⟩

/-- The errors of the other threads are as before. -/
theorem failure_of_ne {u : Nat} (hu : u ≠ a.thread) :
    failure backing s f a u = f u := by
  cases a with
  | read t offset size => rfl
  | turn t =>
      cases hr : s.readers t with
      | turn r =>
          simp only [failure, hr]
          split
          · exact Function.update_of_ne hu _ _
          · rfl
      | idle | calling r | finished offset size err bytes =>
          simp only [failure, hr]
  | step t x => exact Function.update_of_ne hu _ _
  | reply t unset => rfl

/-- The read of the thread that acts stays sound. -/
theorem Moves.sound_self (hlen : ∀ id, (content id).length = chunkSizeBytes)
    (hmoves : Moves backing fresh s a s') (h : Inv content cacheSize (s, f)) :
    Sound content (failure backing s f a a.thread)
      (s'.readers a.thread) := by
  cases hmoves with
  | @read t offset size hr =>
      show Sound content _ ((s.goto t _).readers t)
      rw [readers_goto_self]
      exact copied_start offset size
  | @call t r p hr hpos hp =>
      have ht := h.sound t
      rw [hr] at ht
      show Sound content _ ((goto _ t _).readers t)
      rw [readers_goto_self]
      exact ht
  | @finish t r hr hdone =>
      have ht := h.sound t
      rw [hr] at ht
      show Sound content _ ((goto _ t _).readers t)
      rw [readers_goto_self]
      refine ⟨fun _ => ?_, fun herr => absurd rfl herr⟩
      rw [ht.bytes, hdone, Nat.sub_zero]
  | @step t x r p hr hp =>
      have ht := h.sound t
      show Sound content _ (s.readers t)
      rw [hr] at ht ⊢
      exact ht
  | @reply t unset r c reply hr hpc =>
      have ht := h.sound t
      have hat := h.placed.threads t
      rw [hr] at ht hat
      have hc : c = r.call := by
        have hcall := hat.1
        rw [hpc] at hcall
        exact Option.some.inj hcall
      subst hc
      have hreply := h.provider.replied.replies t r.call reply
        (by rw [hpc]; rfl) (inChunk_call r)
      show Sound content (f t) ((s.goto t _).readers t)
      rw [readers_goto_self]
      exact sound_handle hlen ht hat.2 hreply unset

/-- A step keeps what holds. -/
theorem inv_step (hlen : ∀ id, (content id).length = chunkSizeBytes)
    (hsteady : Steady content backing)
    {s s' : SharedReads σ × (Nat → Option ErrorCode)} {a : Action ι}
    (h : Inv content cacheSize s)
    (hs : Machine.noted (step backing fresh) (failure backing) s a
      = some s') :
    Inv content cacheSize s' := by
  obtain ⟨s, f⟩ := s
  obtain ⟨s', f'⟩ := s'
  obtain ⟨hstep, hnote⟩ := Machine.noted_eq_some.1 hs
  simp only at hstep hnote
  subst hnote
  have hmoves := moves_of_step hstep
  refine ⟨placed_step h.placed hstep, ?_, fun u => ?_⟩
  · have hprovider : ∀ {a : SharedProvider.Action ι} {p : SharedProvider σ},
        SharedProvider.step backing fresh s.provider a = some p →
        SharedProvider.Inv content cacheSize
          (p, SharedProvider.failure backing s.provider f a) :=
      fun hp => SharedProvider.inv_step hlen hsteady h.provider
        (Machine.noted_eq_some.2 ⟨hp, rfl⟩)
    cases hmoves with
    | read hr => exact h.provider
    | @call t r p hr hpos hp =>
        simp only [failure, hr, if_pos hpos]
        exact hprovider hp
    | @finish t r hr hdone =>
        simp only [failure, hr, hdone, Nat.lt_irrefl, if_false]
        exact h.provider
    | step hr hp => exact hprovider hp
    | reply hr hpc => exact h.provider
  · by_cases hu : u = a.thread
    · rw [hu]
      exact hmoves.sound_self hlen h
    · show Sound content (failure backing s f a u) (s'.readers u)
      rw [(hmoves.others hu).1, failure_of_ne hu]
      exact h.sound u

/-- The new machine. -/
theorem inv_new (store : σ) (hsize : 0 < cacheSize) :
    Inv content cacheSize (new fresh store cacheSize, fun _ => none) :=
  ⟨placed_new store hsize, SharedProvider.inv_new store hsize,
    fun _ => trivial⟩

/-- The invariant after any interleaving. -/
theorem inv_run (hlen : ∀ id, (content id).length = chunkSizeBytes)
    (hsteady : Steady content backing) (hsize : 0 < cacheSize) {store : σ}
    {as : List (Action ι)} {s : SharedReads σ × (Nat → Option ErrorCode)}
    (h : runNoting backing fresh store cacheSize as = some s) :
    Inv content cacheSize s :=
  Machine.run_invariant (fun _ _ _ hinv hs => inv_step hlen hsteady hinv hs)
    as _ s (inv_new store hsize) h

-- ============================================================ the results

/-- In every state of every run of any number of threads: a read that
ended OK has delivered the flat bytes it was asked for, and one that failed
has met an error of the store or the network in its last call. -/
theorem reads_transparent
    (hlen : ∀ id, (content id).length = chunkSizeBytes)
    (hsteady : Steady content backing) (hsize : 0 < cacheSize) {store : σ}
    {as : List (Action ι)}
    (h : runNoting backing fresh store cacheSize as = some (s, f)) {t : Nat}
    {offset size : Nat} {err : ErrorCode} {bytes : Bytes}
    (hr : s.readers t = .finished offset size err bytes) :
    (err = .ok → bytes = flatBytes content offset size)
      ∧ (err ≠ .ok → ∃ e, f t = some e
        ∧ (err = e ∨ err = .internalError)) := by
  have ht := (inv_run hlen hsteady hsize h).sound t
  rw [hr] at ht
  exact ht

/-- Every read ends, if the threads go on as long as they can: of its own
steps it takes no more than 14 for each byte and one, whatever the others
do, and where no thread can go on no read is under way. -/
theorem reads_end (hsize : 0 < cacheSize) {store : σ} {as : List (Action ι)}
    (h : Machine.run (step backing fresh) (new fresh store cacheSize) as
      = some s) (x : ι) :
    (∀ pre t offset size rest, as = pre ++ .read t offset size :: rest →
        (∀ a ∈ rest, a.thread = t → a.goesOn = true) →
        rest.countP (fun a => a.thread = t) ≤ 14 * size + 1)
      ∧ ((∀ a : Action ι, a.goesOn = true → step backing fresh s a = none) →
        ∀ t, Reader.underway (s.readers t) = false) := by
  have hnew : Placed cacheSize (new fresh store cacheSize) :=
    placed_new store hsize
  refine ⟨fun pre t offset size rest has hgoes => ?_, fun hstuck t => ?_⟩
  · rw [has, Machine.run_append] at h
    split at h
    · cases h
    · next m hpre =>
      rw [Machine.run] at h
      split at h
      · cases h
      · next m' hread =>
        have hm := placed_run hnew hpre
        have hleft := left_run t rest m' (placed_step hm hread) hgoes h
        cases moves_of_step hread with
        | read hr =>
            rw [left_goto_self] at hleft
            exact (Nat.le_add_left _ _).trans hleft
  · by_contra hbusy
    obtain ⟨a, hgoes, ha⟩ :=
      (placed_run hnew h).progress (Bool.of_not_eq_false hbusy) x
    rw [hstuck a hgoes] at ha
    cases ha

/-- Thread 0 reads the last byte of a chunk and the first one of the next,
while thread 1 loads the former. -/
def twoReads : List (Action Unit) :=
  [.read 0 (chunkSizeBytes - 1) 2, .read 1 0 5, .turn 1, .turn 0,
    .step 1 (), .step 0 (), .step 1 (), .step 1 (), .step 0 (), .step 0 (),
    .step 0 (), .step 0 (), .reply 0 9, .turn 0, .step 0 (), .step 0 (),
    .step 0 (), .step 0 (), .step 0 (), .reply 0 9, .turn 0]

/-- Two threads that read across a chunk's end, with room for three chunks.
-/
theorem reads_transparent_two :
    ∃ s f, runNoting (uniform 7) (fun _ _ => 0) () 3 twoReads = some (s, f)
      ∧ s.readers 0 = .finished (chunkSizeBytes - 1) 2 .ok [7, 7]
      ∧ [7, 7] = flatBytes (fun _ => List.replicate chunkSizeBytes 7)
        (chunkSizeBytes - 1) 2 := by
  obtain ⟨s, f, hrun, hr⟩ : ∃ s f,
      runNoting (uniform 7) (fun _ _ => 0) () 3 twoReads = some (s, f)
        ∧ s.readers 0 = .finished (chunkSizeBytes - 1) 2 .ok [7, 7] :=
    ⟨_, _, rfl, rfl⟩
  obtain ⟨hok, -⟩ := reads_transparent (fun _ => List.length_replicate)
    (uniform_steady 7) (by decide) hrun hr
  exact ⟨s, f, hrun, hr, hok rfl⟩

/-- The two reads stay within their steps. -/
theorem reads_end_two :
    ∃ s, Machine.run (step (uniform 7) fun _ _ => 0) (new (fun _ _ => 0) () 3)
        twoReads = some s
      ∧ (twoReads.drop 1).countP (fun a => a.thread = 0) ≤ 29
      ∧ (twoReads.drop 2).countP (fun a => a.thread = 1) ≤ 71 := by
  obtain ⟨s, hrun⟩ : ∃ s, Machine.run (step (uniform 7) fun _ _ => 0)
      (new (fun _ _ => 0) () 3) twoReads = some s := ⟨_, rfl⟩
  obtain ⟨hbound, -⟩ := reads_end (by decide) hrun ()
  refine ⟨s, hrun, hbound [] 0 (chunkSizeBytes - 1) 2 _ rfl ?_,
    hbound [.read 0 (chunkSizeBytes - 1) 2] 1 0 5 _ rfl ?_⟩
  · decide
  · decide

end SharedReads

end Distfs

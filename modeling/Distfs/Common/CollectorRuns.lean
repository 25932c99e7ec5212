/-
Any calls of `LruCollector::update` and `remove`.

`update` changes list and index together; `remove` takes the id out of
the index only, and its element stays in the list. So the two are in step
until a `remove` names an id that is tracked, and never again
(`inStep_iff`). As long as they are, the list has what was updated last
(`Invariant`), which is all that is said of the order and of what is
handed to the remover.
-/
import Distfs.Common.LruCollector
import Distfs.Lib.Machine

namespace Distfs

namespace LruCollector

/-- A call of a member function. -/
inductive Call where
  | update (id : UInt32)
  | remove (id : UInt32)
  deriving DecidableEq

/-- One call; `none` is undefined behaviour. -/
def perform (c : LruCollector) : Call → Option LruCollector
  | .update id => (c.update id).map Prod.fst
  | .remove id => some (c.remove id)

/-- The ids that were updated, newest first. -/
def updates (_ : LruCollector) (used : List UInt32) : Call → List UInt32
  | .update id => id :: used
  | .remove _ => used

/-- A collector after some calls, and the updates among them. -/
def run (size : Nat) (calls : List Call) :
    Option (LruCollector × List UInt32) :=
  Machine.run (Machine.noted perform updates) (new size, []) calls

/-- List and index hold the same, in the order of the updates. -/
structure InStep (c : LruCollector) (used : List UInt32) : Prop where
  once : c.ids.Nodup
  nodes : (c.queue.map Prod.fst).Nodup
  tracked : ∀ id, (∃ node, c.iterators id = some node) ↔ id ∈ c.ids
  designates : ∀ id node, c.iterators id = some node → (node, id) ∈ c.queue
  bounded : c.queue.length ≤ max c.size 1
  ordered : c.ids.Pairwise fun x y => used.idxOf x < used.idxOf y

/-- What the call has to do: `update` hands the tracked id that was
updated the longest ago to the remover when a new one comes to a full
list, and no other; `remove` ends the tracking. -/
def Right (c : LruCollector) (used : List UInt32) : Call → Prop
  | .update id => ∃ c' gone, c.update id = some (c', gone)
      ∧ ∀ x, gone = some x
        ↔ c.iterators id = none ∧ c.size ≤ c.queue.length
          ∧ c.iterators x ≠ none
          ∧ ∀ y, c.iterators y ≠ none → y ≠ x →
            used.idxOf y < used.idxOf x
  | .remove id => (c.remove id).iterators id = none
      ∧ id ∉ (c.remove id).ids

/-- List and index are in step after every call, and each call does what
it has to do. -/
def Keeps (size : Nat) (calls : List Call) : Prop :=
  (∀ pre post, calls = pre ++ post →
      ∃ c used, run size pre = some (c, used) ∧ InStep c used)
    ∧ ∀ pre call post c used, calls = pre ++ call :: post →
      run size pre = some (c, used) → Right c used call

/-- No `remove` names an id that is tracked. -/
def RemovesNothing (size : Nat) (calls : List Call) : Prop :=
  ∀ pre id post c used, calls = pre ++ .remove id :: post →
    run size pre = some (c, used) → c.iterators id = none

-- ======================================================= the invariant

/-- The list has the ids that were updated last. -/
structure Invariant (size : Nat) (s : LruCollector × List UInt32) :
    Prop where
  coherent : s.1.Coherent
  room : s.1.size = size
  ids : s.1.ids = (Recency.recents s.2).take size

variable {size : Nat} {c : LruCollector} {used : List UInt32} {id : UInt32}

theorem invariant_new (size : Nat) : Invariant size (new size, []) :=
  ⟨coherent_new size, rfl, (List.take_nil).symm⟩

theorem remove_untracked (h : c.iterators id = none) : c.remove id = c := by
  have hits : (fun i => if i = id then none else c.iterators i)
      = c.iterators := by
    funext i
    by_cases hi : i = id
    · rw [if_pos hi, hi, h]
    · rw [if_neg hi]
  rw [remove, hits]

theorem Coherent.tracked_iff (h : c.Coherent) :
    c.iterators id ≠ none ↔ id ∈ c.ids := by
  rw [h.mem_ids_iff, Option.ne_none_iff_exists']

theorem Invariant.inStep (h : Invariant size (c, used)) : InStep c used := by
  have hids : c.ids = (Recency.recents used).take size := h.ids
  refine ⟨h.coherent.nodup_ids, h.coherent.nodes,
    fun _ => h.coherent.mem_ids_iff.symm,
    fun id node hit => (h.coherent.index id node).1 hit, ?_, ?_⟩
  · have hlen : c.queue.length = c.ids.length := by simp [LruCollector.ids]
    have hle := List.length_take_le size (Recency.recents used)
    have hsize : c.size = size := h.room
    rw [hlen, hids]
    omega
  · rw [hids]
    exact (Recency.pairwise_recents used).sublist (List.take_sublist _ _)

theorem Invariant.right (h : Invariant size (c, used)) {call : Call}
    (hsize : 0 < size ∨ ∀ id, call ≠ .update id)
    (hremove : ∀ id, call = .remove id → c.iterators id = none) :
    Right c used call := by
  have hids : c.ids = (Recency.recents used).take size := h.ids
  have hc : c.size = size := h.room
  cases call with
  | update id =>
      have hpos : 0 < c.size :=
        hc ▸ hsize.resolve_right fun hno => hno id rfl
      obtain ⟨c', hupdate, -⟩ := update_spec h.coherent id (.inl hpos)
      refine ⟨c', _, hupdate, fun x => ?_⟩
      have hlen : c.queue.length = c.ids.length := by
        simp [LruCollector.ids]
      have hnone : c.iterators id = none ↔ id ∉ c.ids := by
        rw [← h.coherent.tracked_iff, not_not]
      simp only [hnone, h.coherent.tracked_iff, hlen, hc, hids]
      exact Recency.evicted_eq_some_iff
  | remove id =>
      refine ⟨if_pos rfl, ?_⟩
      have huntracked := hremove id rfl
      rw [remove_untracked huntracked, ← h.coherent.tracked_iff, not_not]
      exact huntracked

/-- A call that is right keeps the invariant. -/
theorem invariant_step (h : Invariant size (c, used)) {call : Call}
    (hsize : 0 < size ∨ ∀ id, call ≠ .update id)
    (hremove : ∀ id, call = .remove id → c.iterators id = none) :
    ∃ t, Machine.noted perform updates (c, used) call = some t
      ∧ Invariant size t := by
  have hc : c.size = size := h.room
  cases call with
  | update id =>
      have hpos : 0 < c.size :=
        hc ▸ hsize.resolve_right fun hno => hno id rfl
      have htracks : c.Tracks used := by
        refine ⟨h.coherent, hpos, ?_⟩
        rw [hc]
        exact h.ids
      obtain ⟨c', hupdate, htracks', hsize'⟩ := htracks.update id
      refine ⟨(c', id :: used), Machine.noted_eq_some.2 ⟨?_, rfl⟩,
        htracks'.coherent, hsize'.trans hc, ?_⟩
      · simp only [perform, hupdate, Option.map_some]
      · rw [← hc, ← hsize']
        exact htracks'.ids
  | remove id =>
      refine ⟨(c, used), Machine.noted_eq_some.2 ⟨?_, rfl⟩, h⟩
      simp only [perform, remove_untracked (hremove id rfl)]

/-- The invariant holds over calls that do not remove what is tracked. -/
theorem invariant_run (calls : List Call)
    (hsize : 0 < size ∨ ∀ id, .update id ∉ calls) :
    RemovesNothing size calls →
      ∃ s, run size calls = some s ∧ Invariant size s := by
  induction calls using List.reverseRecOn with
  | nil => exact fun _ => ⟨_, rfl, invariant_new size⟩
  | append_singleton calls call ih =>
      intro hremoves
      obtain ⟨s, hrun, hinv⟩ := ih
        (hsize.imp_right fun hno id hid =>
          hno id (List.mem_append_left _ hid))
        fun pre id post c used hcalls hpre =>
          hremoves pre id (post ++ [call]) c used (by rw [hcalls]; simp) hpre
      obtain ⟨t, hstep, ht⟩ : ∃ t,
          Machine.noted perform updates (s.1, s.2) call = some t
            ∧ Invariant size t := invariant_step hinv
        (hsize.imp_right fun hno id hid =>
          hno id (by rw [hid]; exact List.mem_append_right _ (by simp)))
        fun id hid => hremoves calls id [] s.1 s.2 (by rw [hid]) hrun
      exact ⟨t, Machine.run_concat.2 ⟨s, hrun, hstep⟩, ht⟩

-- ==================================================== and only over them

/-- Without room there is nothing in the list, as `update` is undefined
then. -/
theorem run_zero {calls : List Call} (hrun : run 0 calls = some (c, used)) :
    c.queue = [] ∧ c.size = 0 ∧ ∀ id, c.iterators id = none := by
  refine @Machine.run_invariant _ _ (Machine.noted perform updates)
    (fun s => s.1.queue = [] ∧ s.1.size = 0 ∧ ∀ id, s.1.iterators id = none)
    ?_ calls (new 0, []) (c, used) ⟨rfl, rfl, fun _ => rfl⟩ hrun
  rintro s call t ⟨hqueue, hsize, hits⟩ hstep
  have hstep := (Machine.noted_eq_some.1 hstep).1
  cases call with
  | update id =>
      have hnone : s.1.update id = none := by
        rw [update, hits id]
        simp only [hqueue, hsize, List.length_nil, Nat.le_refl, if_true,
          List.getLast?_nil]
      rw [perform, hnone] at hstep
      cases hstep
  | remove id =>
      have ht : t.1 = s.1 := by
        rw [← Option.some.inj hstep]
        exact remove_untracked (hits id)
      rw [ht]
      exact ⟨hqueue, hsize, hits⟩

/-- List and index are in step over all calls, and each call does what it
has to do, exactly if there is room for an id or none is updated, and no
`remove` names an id that is tracked. -/
theorem inStep_iff (size : Nat) (calls : List Call) :
    Keeps size calls
      ↔ (0 < size ∨ ∀ id, .update id ∉ calls)
        ∧ ∀ pre id post c used, calls = pre ++ .remove id :: post →
          run size pre = some (c, used) → c.iterators id = none := by
  constructor
  · rintro ⟨hin, hright⟩
    constructor
    · by_contra hcon
      obtain ⟨hsize, hupdates⟩ := not_or.1 hcon
      obtain ⟨id, hid⟩ := not_forall_not.1 hupdates
      obtain ⟨pre, post, hcalls⟩ := List.append_of_mem hid
      obtain ⟨c, used, hrun, -⟩ := hin pre _ hcalls
      obtain ⟨c', gone, hupdate, -⟩ :=
        hright pre _ post c used hcalls hrun
      rw [Nat.eq_zero_of_not_pos hsize] at hrun
      obtain ⟨hqueue, hzero, hits⟩ := run_zero hrun
      rw [update, hits id] at hupdate
      simp [hqueue, hzero] at hupdate
    · intro pre id post c used hcalls hrun
      obtain ⟨c', used', hrun', hstep⟩ := hin pre _ hcalls
      rw [hrun, Option.some.injEq, Prod.mk.injEq] at hrun'
      obtain ⟨rfl, rfl⟩ := hrun'
      obtain ⟨-, hout⟩ := hright pre _ post c used hcalls hrun
      by_contra hit
      exact hout ((hstep.tracked id).1 (Option.ne_none_iff_exists'.1 hit))
  · rintro ⟨hsize, hremoves⟩
    have hinv : ∀ pre post, calls = pre ++ post →
        ∃ s, run size pre = some s ∧ Invariant size s := by
      intro pre post hcalls
      refine invariant_run pre (hsize.imp_right fun hno id hid =>
        hno id (by rw [hcalls]; exact List.mem_append_left _ hid)) ?_
      exact fun pre' id post' c used hpre => hremoves pre' id (post' ++ post)
        c used (by rw [hcalls, hpre]; simp)
    refine ⟨fun pre post hcalls => ?_,
      fun pre call post c used hcalls hrun => ?_⟩
    · obtain ⟨s, hrun, hs⟩ := hinv pre post hcalls
      exact ⟨s.1, s.2, hrun, hs.inStep⟩
    · obtain ⟨s, hrun', hs⟩ := hinv pre _ hcalls
      rw [hrun, Option.some.injEq] at hrun'
      subst hrun'
      refine hs.right (hsize.imp_right fun hno id hid => ?_)
        fun id hid => hremoves pre id post c used (hid ▸ hcalls) hrun
      exact hno id (by rw [hcalls, hid]; simp)

/-- A removed id that comes back stands in the list twice, and its old
element takes the new one along. -/
theorem removed_stays :
    ¬ Keeps 2 [.update 1, .remove 1, .update 1, .update 2]
      ∧ (run 2 [.update 1, .remove 1, .update 1]).bind
          (fun s => (s.1.update 2).map Prod.snd) = some (some 1) := by
  refine ⟨fun h => ?_, by decide⟩
  have hright := h.2 [.update 1] (.remove 1) [.update 1, .update 2] _ _ rfl rfl
  exact hright.2 (by decide)

end LruCollector

end Distfs

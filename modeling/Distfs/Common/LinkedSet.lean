/-
`OrderedSet` with its iterators (`common/ordered_set.{h,cc}`).

`OrderedSet` models an iterator by the string it points at. Here the
nodes of the unordered set have an identity, and an iterator is the
identity of a node. It is valid until its node is erased, which is what
the code relies on; to follow or to erase an iterator without a node is
undefined behaviour and `none`. The nodes are listed as they were
inserted, but no operation goes by their order.

# Results

- `Linked`: the queue has the iterators of the nodes, as inserted. It is
  kept (`pop_linked`, `push_linked`), so no iterator dangles.
- `run_ordered`: seen by its strings the set is an `OrderedSet`, over any
  calls.
- `orderedSet_fifo`: over any calls it is a bounded first-in first-out
  set, by the log of the insertions.
-/
import Distfs.Common.OrderedSet
import Distfs.Lib.Machine

namespace Distfs

/-- `OrderedSet`; `nextNode` is the identity of the next node. -/
structure LinkedSet where
  data : List (Nat × Bytes)
  iterators : List Nat
  maxSize : UInt32
  nextNode : Nat
  deriving DecidableEq

namespace LinkedSet

/-- The constructor. -/
def new (maxSize : UInt32) : LinkedSet :=
  { data := [], iterators := [], maxSize := maxSize, nextNode := 0 }

/-- The strings in the set. -/
def strings (s : LinkedSet) : List Bytes := s.data.map Prod.snd

/-- `size`: a `size_t` returned as a `uint32_t`. -/
def size (s : LinkedSet) : Nat := uint32 s.data.length

/-- `*it`. -/
def deref (s : LinkedSet) (it : Nat) : Option Bytes :=
  (s.data.find? fun p => p.1 = it).map Prod.snd

/-- `pop`. -/
def pop (s : LinkedSet) : Option (Bytes × LinkedSet) :=
  match s.iterators with
  | [] => none
  | it :: iterators =>
      match s.deref it with
      | none => none
      | some str =>
          some (str, { s with
            data := s.data.filter fun p => p.1 ≠ it
            iterators := iterators })

/-- The loop of `push`: pop while there are more than `max_size`. -/
def shrink (s : LinkedSet) : Nat → Option LinkedSet
  | 0 => if s.maxSize.toNat < s.data.length then none else some s
  | fuel + 1 =>
      if s.maxSize.toNat < s.data.length then
        match s.pop with
        | none => none
        | some (_, s') => shrink s' fuel
      else some s

/-- `push`. A pop for each node is enough for its loop. -/
def push (s : LinkedSet) (str : Bytes) : Option (Bool × LinkedSet) :=
  if str ∈ s.strings then some (false, s)
  else
    let s' : LinkedSet := { s with
      data := s.data ++ [(s.nextNode, str)]
      iterators := s.iterators ++ [s.nextNode]
      nextNode := s.nextNode + 1 }
    (s'.shrink s'.data.length).map fun s => (true, s)

/-- What the iterators in the queue designate. -/
def queued (s : LinkedSet) : List Bytes := s.iterators.filterMap s.deref

/-- The same strings, without the nodes. -/
def ordered (s : LinkedSet) : OrderedSet :=
  OrderedSet.ofList s.maxSize s.strings

-- ======================================================= the invariant

/-- The queue has the iterators of the nodes as they were inserted, and a
string has one node. -/
structure Linked (s : LinkedSet) : Prop where
  iterators : s.iterators = s.data.map Prod.fst
  nodes : (s.data.map Prod.fst).Nodup
  strings : s.strings.Nodup
  fresh : ∀ p ∈ s.data, p.1 < s.nextNode

/-- The empty set is linked. -/
theorem linked_new (maxSize : UInt32) : (new maxSize).Linked :=
  ⟨rfl, List.nodup_nil, List.nodup_nil, fun p hp => by cases hp⟩

variable {s s' : LinkedSet} {str : Bytes}

/-- A node is designated by its identity. -/
theorem Linked.deref (h : s.Linked) {p : Nat × Bytes} (hp : p ∈ s.data) :
    s.deref p.1 = some p.2 := by
  unfold LinkedSet.deref
  cases hfind : s.data.find? fun q => q.1 = p.1 with
  | none =>
      have hno := List.find?_eq_none.1 hfind p hp
      simp at hno
  | some q =>
      have hq : q.1 = p.1 := by simpa using List.find?_some hfind
      rw [List.inj_on_of_nodup_map h.nodes (List.mem_of_find?_eq_some hfind)
        hp hq]
      rfl

/-- No iterator dangles, and the queue is the set in order of
insertion. -/
theorem Linked.valid (h : s.Linked) :
    s.iterators.map s.deref = s.strings.map some := by
  rw [h.iterators, LinkedSet.strings, List.map_map, List.map_map]
  exact List.map_congr_left fun p hp => h.deref hp

/-- The queue designates the strings in order. -/
theorem Linked.queued (h : s.Linked) : s.queued = s.strings := by
  have hvalid := congrArg (List.filterMap id) h.valid
  rwa [List.filterMap_map, List.filterMap_map, Function.id_comp,
    Function.id_comp, List.filterMap_some] at hvalid

/-- What is left without the first `k` nodes. -/
def dropFirst (s : LinkedSet) (k : Nat) : LinkedSet :=
  { s with
    data := s.data.drop k
    iterators := (s.data.drop k).map Prod.fst }

/-- A set without its first nodes is linked. -/
theorem Linked.dropFirst (h : s.Linked) (k : Nat) :
    (s.dropFirst k).Linked := by
  have hsub := List.drop_sublist k s.data
  refine ⟨rfl, h.nodes.sublist (hsub.map _), h.strings.sublist (hsub.map _),
    fun p hp => h.fresh p (hsub.subset hp)⟩

theorem dropFirst_zero (h : s.Linked) : s.dropFirst 0 = s := by
  rw [LinkedSet.dropFirst, List.drop_zero, ← h.iterators]

theorem dropFirst_dropFirst (s : LinkedSet) (j k : Nat) :
    (s.dropFirst j).dropFirst k = s.dropFirst (j + k) := by
  simp only [LinkedSet.dropFirst, List.drop_drop]

/-- The strings of what is left. -/
theorem strings_dropFirst (s : LinkedSet) (k : Nat) :
    (s.dropFirst k).strings = s.strings.drop k := List.map_drop

/-- `pop` takes the first node. -/
theorem pop_linked (h : s.Linked) {p : Nat × Bytes}
    {rest : List (Nat × Bytes)} (hdata : s.data = p :: rest) :
    s.pop = some (p.2, s.dropFirst 1) := by
  have hits : s.iterators = p.1 :: rest.map Prod.fst := by
    rw [h.iterators, hdata, List.map_cons]
  have hp : p ∈ s.data := by
    rw [hdata]
    exact List.mem_cons_self
  have hnodes := h.nodes
  rw [hdata, List.map_cons, List.nodup_cons] at hnodes
  have hfilter : (s.data.filter fun q => q.1 ≠ p.1) = rest := by
    rw [hdata, List.filter_cons_of_neg (by simp), List.filter_eq_self]
    intro q hq
    rw [decide_eq_true_eq]
    exact fun heq => hnodes.1 (heq ▸ List.mem_map_of_mem hq)
  rw [pop, hits]
  simp only [h.deref hp, hfilter]
  rw [LinkedSet.dropFirst, hdata, List.drop_succ_cons, List.drop_zero]

/-- The loop of `push` ends, and drops what came first. -/
theorem shrink_linked (fuel : Nat) :
    ∀ s : LinkedSet, s.Linked → s.data.length ≤ fuel →
      s.shrink fuel
        = some (s.dropFirst (s.data.length - s.maxSize.toNat)) := by
  induction fuel with
  | zero =>
      intro s h hfuel
      rw [shrink, if_neg (by omega), Nat.sub_eq_zero_of_le (by omega),
        dropFirst_zero h]
  | succ fuel ih =>
      intro s h hfuel
      rw [shrink]
      by_cases hfull : s.maxSize.toNat < s.data.length
      · rw [if_pos hfull]
        cases hdata : s.data with
        | nil =>
            rw [hdata] at hfull
            exact absurd hfull (Nat.not_lt_zero _)
        | cons p rest =>
            have hlen : (s.dropFirst 1).data.length = rest.length := by
              rw [LinkedSet.dropFirst, hdata]
              rfl
            rw [hdata, List.length_cons] at hfull hfuel
            rw [pop_linked h hdata]
            simp only
            rw [ih _ (h.dropFirst 1) (by omega), dropFirst_dropFirst, hlen,
              List.length_cons]
            congr 2
            show 1 + (rest.length - s.maxSize.toNat) = _
            omega
      · rw [if_neg hfull, Nat.sub_eq_zero_of_le (by omega), dropFirst_zero h]

/-- `push` of a new string: it is appended, and what came first goes
while there are more than `max_size`. -/
theorem push_linked (h : s.Linked) (hstr : str ∉ s.strings) :
    ∃ s', s.push str = some (true, s') ∧ s'.Linked
      ∧ s'.maxSize = s.maxSize
      ∧ s'.strings = Fifo.enter s.maxSize.toNat s.strings str := by
  have hadded : Linked { s with
      data := s.data ++ [(s.nextNode, str)]
      iterators := s.iterators ++ [s.nextNode]
      nextNode := s.nextNode + 1 } := by
    refine ⟨?_, ?_, ?_, ?_⟩
    · simp [h.iterators]
    · rw [List.map_append, List.nodup_append]
      refine ⟨h.nodes, List.nodup_singleton _, ?_⟩
      rintro a ha b hb rfl
      obtain ⟨p, hp, rfl⟩ := List.mem_map.1 ha
      have hlt := h.fresh p hp
      rw [List.mem_singleton.1 hb] at hlt
      exact Nat.lt_irrefl _ hlt
    · rw [LinkedSet.strings, List.map_append, List.nodup_append]
      refine ⟨h.strings, List.nodup_singleton _, ?_⟩
      rintro a ha b hb rfl
      have heq : a = str := List.mem_singleton.1 hb
      exact hstr (heq ▸ ha)
    · intro p hp
      rcases List.mem_append.1 hp with hp | hp
      · exact Nat.lt_succ_of_lt (h.fresh p hp)
      · rw [List.mem_singleton.1 hp]
        exact Nat.lt_succ_self _
  rw [push, if_neg hstr]
  simp only [shrink_linked _ _ hadded (Nat.le_refl _), Option.map_some]
  refine ⟨_, rfl, hadded.dropFirst _, rfl, ?_⟩
  rw [strings_dropFirst, Fifo.enter_of_notMem hstr]
  simp [strings]

/-- A string that is there is not pushed. -/
theorem push_present (hstr : str ∈ s.strings) :
    s.push str = some (false, s) := if_pos hstr

-- ========================================================== refinement

/-- `push` on the strings. -/
theorem push_ordered (h : s.Linked) (str : Bytes) :
    ∃ s', s.push str = some ((s.ordered.push str).1, s') ∧ s'.Linked
      ∧ s'.ordered = (s.ordered.push str).2 := by
  rw [ordered, OrderedSet.push_ofList h.strings]
  by_cases hstr : str ∈ s.strings
  · refine ⟨s, ?_, h, ?_⟩
    · rw [push_present hstr]
      simp [hstr]
    · rw [Fifo.enter_of_mem hstr, ordered]
  · obtain ⟨s', hpush, hlinked, hmax, hstrings⟩ := push_linked h hstr
    refine ⟨s', ?_, hlinked, ?_⟩
    · rw [hpush]
      simp [hstr]
    · rw [ordered, hmax, hstrings]

/-- `pop` on the strings. -/
theorem pop_ordered (h : s.Linked) :
    s.ordered.pop = s.pop.map fun r => (r.1, r.2.ordered) := by
  cases hdata : s.data with
  | nil =>
      rw [pop, h.iterators, hdata, ordered, strings, hdata]
      rfl
  | cons p rest =>
      have hstrings : s.strings = p.2 :: rest.map Prod.snd := by
        rw [strings, hdata, List.map_cons]
      have hnodup := h.strings
      rw [pop_linked h hdata, Option.map_some, ordered, ordered,
        strings_dropFirst, hstrings, List.drop_succ_cons, List.drop_zero]
      rw [hstrings] at hnodup
      exact OrderedSet.pop_ofList hnodup

-- ================================================================ runs

/-- A call of a member function. -/
inductive Call where
  | push (str : Bytes)
  | pop
  deriving DecidableEq

/-- One call; `none` is undefined behaviour. -/
def perform (s : LinkedSet) : Call → Option LinkedSet
  | .push str => (s.push str).map Prod.snd
  | .pop => s.pop.map Prod.snd

/-- The same call of an `OrderedSet`. -/
def performOrdered (o : OrderedSet) : Call → Option OrderedSet
  | .push str => some (o.push str).2
  | .pop => o.pop.map Prod.snd

/-- A call, seen by the strings, is that of the `OrderedSet`. -/
theorem perform_ordered (h : s.Linked) (call : Call) :
    (s.perform call).map ordered = performOrdered s.ordered call := by
  cases call with
  | push str =>
      obtain ⟨s', hpush, -, hordered⟩ := push_ordered h str
      simp only [perform, hpush, Option.map_some, performOrdered, hordered]
  | pop =>
      simp only [perform, performOrdered, pop_ordered h, Option.map_map]
      rfl

/-- A call keeps the set linked. -/
theorem perform_linked (h : s.Linked) {call : Call}
    (hcall : s.perform call = some s') : s'.Linked := by
  cases call with
  | push str =>
      obtain ⟨t, hpush, hlinked, -⟩ := push_ordered h str
      rw [perform, hpush, Option.map_some, Option.some.injEq] at hcall
      rwa [← hcall]
  | pop =>
      rw [perform] at hcall
      cases hdata : s.data with
      | nil =>
          rw [pop, h.iterators, hdata] at hcall
          cases hcall
      | cons p rest =>
          rw [pop_linked h hdata, Option.map_some, Option.some.injEq] at hcall
          rw [← hcall]
          exact h.dropFirst 1

/-- The set with its nodes and iterators does what an `OrderedSet` does,
and is undefined where that one is. -/
theorem run_ordered (maxSize : UInt32) (calls : List Call) :
    (Machine.run perform (new maxSize) calls).map ordered
      = Machine.run performOrdered (OrderedSet.new maxSize) calls :=
  Machine.run_map (fun _ call h => perform_ordered h call)
    (fun _ _ _ h hcall => perform_linked h hcall) calls (new maxSize)
    (linked_new maxSize)

/-- The log of the strings that `push` inserted, by its answers. -/
def logged (s : LinkedSet) (log : List Bytes) : Call → List Bytes
  | .push str =>
      match s.push str with
      | some (true, _) => log ++ [str]
      | _ => log
  | .pop => log

/-- A set after some calls, and the log. -/
def run (maxSize : UInt32) (calls : List Call) :
    Option (LinkedSet × List Bytes) :=
  Machine.run (Machine.noted perform logged) (new maxSize, []) calls

/-- Before each `pop` there is something in the set. -/
def Checked (maxSize : UInt32) (calls : List Call) : Prop :=
  ∀ pre post s log, calls = pre ++ .pop :: post →
    run maxSize pre = some (s, log) → 0 < s.size

/-- The invariant of the runs: what is in the set was inserted last. -/
structure Inv (maxSize : UInt32) (s : LinkedSet × List Bytes) : Prop where
  linked : s.1.Linked
  fixed : s.1.maxSize = maxSize
  bounded : s.1.strings.length ≤ maxSize.toNat
  latest : s.1.strings <:+ s.2

variable {maxSize : UInt32} {log : List Bytes}

/-- The new set. -/
theorem inv_new (maxSize : UInt32) : Inv maxSize (new maxSize, []) :=
  ⟨linked_new maxSize, rfl, Nat.zero_le _, List.suffix_rfl⟩

/-- The size that is returned is the size. -/
theorem Inv.size (h : Inv maxSize (s, log)) : s.size = s.strings.length := by
  have hbounded : s.strings.length ≤ maxSize.toNat := h.bounded
  have hlt := maxSize.toNat_lt
  rw [strings, List.length_map] at hbounded ⊢
  exact uint32_of_lt (by omega)

/-- A push is defined and keeps the invariant. -/
theorem inv_push (h : Inv maxSize (s, log)) (str : Bytes) :
    ∃ t, Machine.noted perform logged (s, log) (.push str) = some t
      ∧ Inv maxSize t := by
  by_cases hstr : str ∈ s.strings
  · refine ⟨(s, log), Machine.noted_eq_some.2 ⟨?_, ?_⟩, h⟩
    · simp only [perform, push_present hstr, Option.map_some]
    · simp only [logged, push_present hstr]
  · obtain ⟨s', hpush, hlinked, hmax, hstrings⟩ := push_linked h.linked hstr
    refine ⟨(s', log ++ [str]), Machine.noted_eq_some.2 ⟨?_, ?_⟩,
      hlinked, hmax.trans h.fixed, ?_, ?_⟩
    · simp only [perform, hpush, Option.map_some]
    · simp only [logged, hpush]
    · rw [hstrings, h.fixed]
      exact Fifo.length_enter_le h.bounded
    · rw [hstrings]
      exact Fifo.enter_suffix h.latest hstr

/-- A pop that finds something is defined and keeps it. -/
theorem inv_pop (h : Inv maxSize (s, log)) (hpos : 0 < s.size) :
    ∃ t, Machine.noted perform logged (s, log) .pop = some t
      ∧ Inv maxSize t := by
  rw [h.size, strings, List.length_map] at hpos
  obtain ⟨p, rest, hdata⟩ := List.exists_cons_of_length_pos hpos
  have hstrings := strings_dropFirst s 1
  refine ⟨(s.dropFirst 1, log), Machine.noted_eq_some.2 ⟨?_, rfl⟩,
    h.linked.dropFirst 1, h.fixed, ?_, ?_⟩
  · simp only [perform, pop_linked h.linked hdata, Option.map_some]
  · rw [hstrings, List.length_drop]
    exact Nat.le_trans (Nat.sub_le _ _) h.bounded
  · rw [hstrings]
    exact (List.drop_suffix 1 _).trans h.latest

/-- Calls that look before they pop meet no undefined behaviour. -/
theorem inv_run (calls : List Call) :
    Checked maxSize calls →
      ∃ s log, run maxSize calls = some (s, log) ∧ Inv maxSize (s, log) := by
  induction calls using List.reverseRecOn with
  | nil => exact fun _ => ⟨_, _, rfl, inv_new maxSize⟩
  | append_singleton calls call ih =>
      intro hchecked
      obtain ⟨s, log, hrun, hinv⟩ := ih fun pre post s log hcalls hpre =>
        hchecked pre (post ++ [call]) s log (by rw [hcalls]; simp) hpre
      obtain ⟨t, hstep, ht⟩ : ∃ t,
          Machine.noted perform logged (s, log) call = some t
            ∧ Inv maxSize t := by
        cases call with
        | push str => exact inv_push hinv str
        | pop => exact inv_pop hinv (hchecked calls [] s log rfl hrun)
      exact ⟨t.1, t.2, Machine.run_concat.2 ⟨(s, log), hrun, hstep⟩, ht⟩

/-- After any calls that look before they pop, the queue designates each
string of the set once, the older before the younger; `push` says whether
the string was absent, and then the oldest go until `max_size` are left;
`pop` takes the one that was inserted the longest ago. -/
theorem orderedSet_fifo (maxSize : UInt32) (calls : List Call)
    (hchecked : Checked maxSize calls) :
    ∃ s log, run maxSize calls = some (s, log)
      ∧ s.iterators.map s.deref = s.queued.map some
      ∧ s.queued.Nodup
      ∧ (∀ str, str ∈ s.queued ↔ str ∈ s.strings)
      ∧ (s.queued.Pairwise fun x y => Fifo.age log y < Fifo.age log x)
      ∧ s.strings.length ≤ maxSize.toNat
      ∧ (∀ str, ∃ new s', s.push str = some (new, s')
        ∧ (new = true ↔ str ∉ s.strings)
        ∧ (str ∈ s.strings → s' = s)
        ∧ (str ∉ s.strings → s'.queued
          = (s.queued ++ [str]).drop (s.queued.length + 1 - maxSize.toNat)))
      ∧ (0 < s.size → ∃ str s', s.pop = some (str, s')
        ∧ s.queued = str :: s'.queued
        ∧ ∀ x ∈ s.strings, x ≠ str → Fifo.age log x < Fifo.age log str) := by
  obtain ⟨s, log, hrun, hinv⟩ := inv_run calls hchecked
  have hqueued := hinv.linked.queued
  have hages := Fifo.pairwise_age hinv.latest hinv.linked.strings
  refine ⟨s, log, hrun, ?_, ?_, ?_, ?_, hinv.bounded, ?_, ?_⟩
  · rw [hqueued]
    exact hinv.linked.valid
  · rw [hqueued]
    exact hinv.linked.strings
  · rw [hqueued]
    exact fun _ => Iff.rfl
  · rw [hqueued]
    exact hages
  · intro str
    by_cases hstr : str ∈ s.strings
    · exact ⟨false, s, push_present hstr, by simp [hstr], fun _ => rfl,
        fun hnew => absurd hstr hnew⟩
    · obtain ⟨s', hpush, hlinked, -, hstrings⟩ := push_linked hinv.linked hstr
      refine ⟨true, s', hpush, by simp [hstr], fun h => absurd h hstr,
        fun _ => ?_⟩
      have hmax : s.maxSize = maxSize := hinv.fixed
      rw [hlinked.queued, hstrings, hqueued, Fifo.enter_of_notMem hstr, hmax]
  · intro hpos
    rw [hinv.size, strings, List.length_map] at hpos
    obtain ⟨p, rest, hdata⟩ := List.exists_cons_of_length_pos hpos
    have hstrings : s.strings = p.2 :: rest.map Prod.snd := by
      rw [strings, hdata, List.map_cons]
    refine ⟨p.2, s.dropFirst 1, pop_linked hinv.linked hdata, ?_, ?_⟩
    · rw [hqueued, (hinv.linked.dropFirst 1).queued, strings_dropFirst,
        hstrings, List.drop_succ_cons, List.drop_zero]
    · intro x hx hne
      rw [hstrings] at hages hx
      exact (List.pairwise_cons.1 hages).1 x
        ((List.mem_cons.1 hx).resolve_left hne)

/-- Room for one string: the second pushes out the first. -/
theorem orderedSet_fifo_two_strings :
    ∃ s log, run 1 [.push [97], .push [98], .pop] = some (s, log)
      ∧ s.strings = [] ∧ log = [[97], [98]] := by
  have hchecked : Checked 1 [.push [97], .push [98], .pop] := by
    intro pre post s log hcalls hrun
    rcases pre with _ | ⟨_, _ | ⟨_, _ | ⟨_, pre⟩⟩⟩
    · cases hcalls
    · cases hcalls
    · cases hcalls
      cases hrun
      decide
    · simp at hcalls
  obtain ⟨s, log, hrun, -⟩ := orderedSet_fifo 1 _ hchecked
  cases hrun
  exact ⟨_, _, rfl, rfl, rfl⟩

end LinkedSet

end Distfs

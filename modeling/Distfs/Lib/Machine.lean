/-
Runs of a transition function.

A machine is a partial step function `σ → α → Option σ`: the action
either is not possible in the state or leads to one next state. A run
takes a list of actions. `run_invariant` and `forall_reached_iff` are how
properties of all reached states are proved from what one step does;
where a step does so for some actions only, the forms `_of_mem` ask it of
the actions of the run.

`noted` adds a history variable: what is to be remembered of the steps
that were taken. It leaves the runs as they are (`run_noted`).
-/
import Mathlib.Data.List.Induction

namespace Machine

variable {σ α : Type} (step : σ → α → Option σ)

/-- The state a list of actions leads to. -/
def run (s : σ) : List α → Option σ
  | [] => some s
  | a :: as =>
      match step s a with
      | none => none
      | some t => run t as

variable {step}

theorem run_append (as bs : List α) :
    ∀ s : σ, run step s (as ++ bs)
      = match run step s as with
        | none => none
        | some t => run step t bs := by
  induction as with
  | nil => exact fun _ => rfl
  | cons a as ih =>
      intro s
      rw [List.cons_append, run, run]
      cases step s a with
      | none => rfl
      | some t => exact ih t

/-- The last step of a run. -/
theorem run_concat {s t : σ} {as : List α} {a : α} :
    run step s (as ++ [a]) = some t
      ↔ ∃ m, run step s as = some m ∧ step m a = some t := by
  rw [run_append]
  cases run step s as with
  | none => simp
  | some m =>
      simp only [run, Option.some.injEq, exists_eq_left']
      cases step m a <;> simp

/-- What the steps of a run preserve, its end inherits. Of a step it is
known which state the actions before it lead to. -/
theorem run_invariant_of_steps {P : σ → Prop} (as : List α) :
    ∀ s t : σ, (∀ pre a post m u, as = pre ++ a :: post →
        run step s pre = some m → step m a = some u → P m → P u) →
      P s → run step s as = some t → P t := by
  induction as with
  | nil =>
      intro s t _ hs h
      rw [run, Option.some.injEq] at h
      rwa [← h]
  | cons a as ih =>
      intro s t hstep hs h
      rw [run] at h
      cases ha : step s a with
      | none => rw [ha] at h; cases h
      | some m =>
          rw [ha] at h
          refine ih m t (fun pre b post u v has hpre => ?_)
            (hstep [] a as s m rfl rfl ha hs) h
          apply hstep (a :: pre) b post u v (by rw [has]; rfl)
          rw [run, ha]
          exact hpre

theorem run_invariant_of_mem {P : σ → Prop} (as : List α)
    (hstep : ∀ a ∈ as, ∀ s t, P s → step s a = some t → P t)
    (s t : σ) (hs : P s) (h : run step s as = some t) : P t :=
  run_invariant_of_steps as s t
    (fun _ a _ m u has _ ha hm => hstep a (by rw [has]; simp) m u hm ha) hs h

theorem run_invariant {P : σ → Prop}
    (hstep : ∀ s a t, P s → step s a = some t → P t) (as : List α) :
    ∀ s t : σ, P s → run step s as = some t → P t :=
  run_invariant_of_mem as fun a _ s t => hstep s a t

/-- A view of the states, under which the steps from those with `P` are
steps of another machine, makes runs to its runs. -/
theorem run_map {τ : Type} {step' : τ → α → Option τ} {f : σ → τ}
    {P : σ → Prop}
    (hview : ∀ s a, P s → (step s a).map f = step' (f s) a)
    (hstep : ∀ s a t, P s → step s a = some t → P t) (as : List α) :
    ∀ s : σ, P s → (run step s as).map f = run step' (f s) as := by
  induction as with
  | nil => exact fun _ _ => rfl
  | cons a as ih =>
      intro s hs
      rw [run, run, ← hview s a hs]
      cases ha : step s a with
      | none => rfl
      | some t => exact ih t (hstep s a t hs ha)

/-- A property that a step keeps exactly under a condition holds in all
states of a run exactly if it holds at the start and every step that is
taken meets the condition. -/
theorem forall_reached_iff_of_mem {P : σ → Prop} {C : σ → α → Prop}
    (as : List α)
    (hstep : ∀ a ∈ as, ∀ s t, P s → step s a = some t → (P t ↔ C s a))
    (s : σ) :
    (∀ pre post t, as = pre ++ post → run step s pre = some t → P t)
      ↔ P s ∧ ∀ pre a post m t, as = pre ++ a :: post →
        run step s pre = some m → step m a = some t → C m a := by
  constructor
  · intro hall
    refine ⟨hall [] as s rfl rfl, ?_⟩
    intro pre a post m t has hpre ha
    have hm := hall pre (a :: post) m has hpre
    have ht := hall (pre ++ [a]) post t (by rw [has]; simp)
      (run_concat.2 ⟨m, hpre, ha⟩)
    exact (hstep a (by rw [has]; simp) m t hm ha).1 ht
  · intro hcond pre
    -- from the front: the prefix shortened by its last action is a prefix
    induction pre using List.reverseRecOn with
    | nil =>
        intro post t _ ht
        rw [run, Option.some.injEq] at ht
        rw [← ht]
        exact hcond.1
    | append_singleton pre a ih =>
        intro post t has ht
        obtain ⟨m, hpre, ha⟩ := run_concat.1 ht
        have has' : as = pre ++ a :: post := by rw [has]; simp
        have hm := ih (a :: post) m has' hpre
        exact (hstep a (by rw [has']; simp) m t hm ha).2
          (hcond.2 pre a post m t has' hpre ha)

theorem forall_reached_iff {P : σ → Prop} {C : σ → α → Prop}
    (hstep : ∀ s a t, P s → step s a = some t → (P t ↔ C s a))
    (s : σ) (as : List α) :
    (∀ pre post t, as = pre ++ post → run step s pre = some t → P t)
      ↔ P s ∧ ∀ pre a post m t, as = pre ++ a :: post →
        run step s pre = some m → step m a = some t → C m a :=
  forall_reached_iff_of_mem as (fun a _ s t => hstep s a t) s

/-- What holds of a step exactly under a condition, where an invariant
holds that is kept under the condition: it holds of all steps of a run
exactly if they all meet the condition. -/
theorem forall_steps_iff {P : σ → Prop} {Q : σ → α → σ → Prop}
    {C : σ → α → Prop} (as : List α) (s : σ) (hs : P s)
    (hstep : ∀ pre a post m t, as = pre ++ a :: post →
      run step s pre = some m → step m a = some t → P m →
      (Q m a t ↔ C m a) ∧ (C m a → P t)) :
    (∀ pre a post m t, as = pre ++ a :: post → run step s pre = some m →
        step m a = some t → Q m a t)
      ↔ ∀ pre a post m t, as = pre ++ a :: post → run step s pre = some m →
        step m a = some t → C m a := by
  -- the invariant holds where all steps before were good in either sense
  have hinv : (∀ pre a post m t, as = pre ++ a :: post →
        run step s pre = some m → step m a = some t → P m → C m a) →
      ∀ pre post m, as = pre ++ post → run step s pre = some m → P m := by
    intro hgood pre
    induction pre using List.reverseRecOn with
    | nil =>
        intro post m _ hm
        rw [run, Option.some.injEq] at hm
        rw [← hm]
        exact hs
    | append_singleton pre a ih =>
        intro post m has hm
        obtain ⟨u, hpre, ha⟩ := run_concat.1 hm
        have has' : as = pre ++ a :: post := by rw [has]; simp
        have hu := ih (a :: post) u has' hpre
        exact (hstep pre a post u m has' hpre ha hu).2
          (hgood pre a post u m has' hpre ha hu)
  constructor
  · intro hall pre a post m t has hpre ha
    have hgood := fun pre a post m t has hpre ha hm =>
      (hstep pre a post m t has hpre ha hm).1.1
        (hall pre a post m t has hpre ha)
    exact hgood pre a post m t has hpre ha (hinv hgood pre _ m has hpre)
  · intro hall pre a post m t has hpre ha
    have hm := hinv (fun pre a post m t has hpre ha _ =>
      hall pre a post m t has hpre ha) pre _ m has hpre
    exact (hstep pre a post m t has hpre ha hm).1.2
      (hall pre a post m t has hpre ha)

/-- What holds of all steps of a run, from the front. -/
theorem forall_steps_cons {C : σ → α → Prop} {s : σ} {a : α} {as : List α}
    (h : ∀ t, step s a = some t → C s a
      ∧ ∀ pre b post m u, as = pre ++ b :: post → run step t pre = some m →
        step m b = some u → C m b)
    (pre : List α) (b : α) (post : List α) (m u : σ)
    (has : a :: as = pre ++ b :: post) (hpre : run step s pre = some m)
    (hb : step m b = some u) : C m b := by
  cases pre with
  | nil =>
      obtain ⟨rfl, -⟩ := List.cons.inj has
      cases hpre
      exact (h u hb).1
  | cons c pre =>
      obtain ⟨rfl, hrest⟩ := List.cons.inj has
      rw [run] at hpre
      cases ha : step s a with
      | none => rw [ha] at hpre; cases hpre
      | some t =>
          rw [ha] at hpre
          exact (h t ha).2 pre b post m u hrest hpre hb

section Noted

variable {γ : Type} {note : σ → γ → α → γ}

/-- The machine with a history variable. -/
def noted (step : σ → α → Option σ) (note : σ → γ → α → γ) (s : σ × γ)
    (a : α) : Option (σ × γ) :=
  match step s.1 a with
  | none => none
  | some t => some (t, note s.1 s.2 a)

theorem noted_eq_some {s t : σ × γ} {a : α} :
    noted step note s a = some t
      ↔ step s.1 a = some t.1 ∧ note s.1 s.2 a = t.2 := by
  rw [noted]
  cases step s.1 a with
  | none => simp
  | some u => simp [Prod.ext_iff]

/-- The history variable restricts nothing. -/
theorem run_noted (as : List α) :
    ∀ (s : σ) (g : γ) (t : σ), run step s as = some t
      ↔ ∃ g', run (noted step note) (s, g) as = some (t, g') := by
  induction as with
  | nil =>
      intro s g t
      simp [run]
  | cons a as ih =>
      intro s g t
      rw [run, run, noted]
      cases step s a with
      | none => simp
      | some u => exact ih u _ t

end Noted

end Machine

/-
Sessions of a service, and when one service does for another.

A service answers requests one after the other and has a state of its
own. `session` runs one whose answers can be undefined; a total one is
the specification. `Refines` is the obligation for one request, in states
that are related and for requests the specification admits: the answer
is one that will do for the specified one. `Refines.session` carries it
over all sessions.
-/
namespace Session

variable {σ α ι ρ : Type}

/-- The answers to a list of requests, unless one of them is undefined. -/
def session (step : σ → ι → Option (ρ × σ)) :
    σ → List ι → Option (List ρ × σ)
  | s, [] => some ([], s)
  | s, q :: qs =>
      match step s q with
      | none => none
      | some (r, s) =>
          match session step s qs with
          | none => none
          | some (rs, s) => some (r :: rs, s)

/-- The answers of the specification. -/
def replies (spec : α → ι → ρ × α) : α → List ι → List ρ
  | _, [] => []
  | a, q :: qs => (spec a q).1 :: replies spec (spec a q).2 qs

/-- The answers will do, one by one, for those of the specification. -/
def Answers (does : ι → ρ → ρ → Prop) (spec : α → ι → ρ × α) :
    α → List ι → List ρ → Prop
  | _, [], [] => True
  | _, [], _ :: _ => False
  | _, _ :: _, [] => False
  | a, q :: qs, r :: rs =>
      does q r (spec a q).1 ∧ Answers does spec (spec a q).2 qs rs

/-- Every request is admitted in the state it finds. -/
def Admitted (allowed : α → ι → Prop) (spec : α → ι → ρ × α) :
    α → List ι → Prop
  | _, [] => True
  | a, q :: qs => allowed a q ∧ Admitted allowed spec (spec a q).2 qs

/-- The service answers each admitted request with what will do for the
specification's answer, and stays related to it. -/
def Refines (step : σ → ι → Option (ρ × σ)) (spec : α → ι → ρ × α)
    (rel : σ → α → Prop) (allowed : α → ι → Prop) (does : ι → ρ → ρ → Prop) :
    Prop :=
  ∀ s a q, rel s a → allowed a q →
    ∃ r s', step s q = some (r, s') ∧ does q r (spec a q).1
      ∧ rel s' (spec a q).2

variable {step : σ → ι → Option (ρ × σ)} {spec : α → ι → ρ × α}
  {rel : σ → α → Prop} {allowed : α → ι → Prop} {does : ι → ρ → ρ → Prop}

-- ============================================================== sessions

/-- What holds of one request holds of a session. -/
theorem Refines.session (h : Refines step spec rel allowed does)
    (qs : List ι) :
    ∀ (s : σ) (a : α), rel s a → Admitted allowed spec a qs →
      ∃ rs s', Session.session step s qs = some (rs, s')
        ∧ Answers does spec a qs rs := by
  induction qs with
  | nil => exact fun s a _ _ => ⟨[], s, rfl, trivial⟩
  | cons q qs ih =>
      intro s a hrel hadmitted
      obtain ⟨r, s₁, hstep, hdoes, hrel₁⟩ := h s a q hrel hadmitted.1
      obtain ⟨rs, s₂, hrest, hanswers⟩ := ih s₁ _ hrel₁ hadmitted.2
      refine ⟨r :: rs, s₂, ?_, hdoes, hanswers⟩
      rw [Session.session, hstep]
      simp only [hrest]

/-- Where only the specified answer will do, the answers are these. -/
theorem Answers.eq_replies (hdoes : ∀ q r r', does q r r' → r = r')
    {qs : List ι} : ∀ {a : α} {rs : List ρ},
      Answers does spec a qs rs → rs = replies spec a qs := by
  induction qs with
  | nil =>
      intro a rs h
      cases rs with
      | nil => rfl
      | cons r rs => exact h.elim
  | cons q qs ih =>
      intro a rs h
      cases rs with
      | nil => exact h.elim
      | cons r rs =>
          obtain ⟨hr, hrs⟩ := h
          rw [replies, ← hdoes q r _ hr, ← ih hrs]

end Session

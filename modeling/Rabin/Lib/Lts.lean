import Mathlib.Tactic.TypeStar

/-!
# Runs of a transition system

A system is given by what each action does to each state, `none` where it cannot happen. `run` takes a
list of actions; `Guarded` says that every action of a run meets a condition on the state it is taken in, and
`trace` is what a run shows.
-/

namespace Lts
variable {σ α : Type*} (step : σ → α → Option σ) (ok : σ → α → Prop)

def run : σ → List α → Option σ
  | s, [] => some s
  | s, a :: as => (step s a).bind (run · as)

def Guarded : σ → List α → Prop
  | _, [] => True
  | s, a :: as => ok s a ∧ ∀ s', step s a = some s' → Guarded s' as

variable {step ok} {ok' : σ → α → Prop} {s s' : σ} {as : List α}

theorem run_cons {a : α} (h : run step s (a :: as) = some s') :
    ∃ s₁, step s a = some s₁ ∧ run step s₁ as = some s' :=
  Option.bind_eq_some_iff.1 h

theorem guarded_cons {a : α} {s₁ : σ} (hok : ok s a) (hs : step s a = some s₁) (hg : Guarded step ok s₁ as) :
    Guarded step ok s (a :: as) := by
  refine ⟨hok, ?_⟩
  intro s' hs'
  rw [hs] at hs'
  cases hs'
  exact hg

theorem Guarded.mono (h : Guarded step ok s as) (hok : ∀ s a, ok s a → ok' s a) : Guarded step ok' s as := by
  induction as generalizing s with
  | nil => trivial
  | cons a as ih => exact ⟨hok s a h.1, fun s₁ hs => ih (h.2 s₁ hs)⟩

theorem Guarded.and (h : Guarded step ok s as) (h' : Guarded step ok' s as) :
    Guarded step (fun s a => ok s a ∧ ok' s a) s as := by
  induction as generalizing s with
  | nil => trivial
  | cons a as ih => exact ⟨⟨h.1, h'.1⟩, fun s₁ hs => ih (h.2 s₁ hs) (h'.2 s₁ hs)⟩

/-- What every step keeps under the guard holds wherever a guarded run leads. -/
theorem invariant_of_guarded {I : σ → Prop} (hstep : ∀ s a s', I s → ok s a → step s a = some s' → I s')
    (hg : Guarded step ok s as) (h0 : I s) (hr : run step s as = some s') : I s' := by
  induction as generalizing s with
  | nil =>
    cases hr
    exact h0
  | cons a as ih =>
    obtain ⟨s₁, h1, h2⟩ := run_cons hr
    exact ih (hg.2 s₁ h1) (hstep s a s₁ h0 hg.1 h1) h2

theorem invariant {I : σ → Prop} (hstep : ∀ s a s', I s → step s a = some s' → I s') (h0 : I s)
    (hr : run step s as = some s') : I s' := by
  have hg : Guarded step (fun _ _ => True) s as := by
    clear hr h0
    induction as generalizing s with
    | nil => trivial
    | cons a as ih => exact ⟨trivial, fun _ _ => ih⟩
  exact invariant_of_guarded (fun s a s' hI _ h => hstep s a s' hI h) hg h0 hr

/-- A run is simulated by one of another system if every step is, by one step or none. If steps that meet the guard
are followed by steps that meet the other guard, so are runs. -/
theorem simulation {τ β : Type*} {step' : τ → β → Option τ} {ok' : τ → β → Prop} {R : σ → τ → Prop}
    (hstep : ∀ s t a s', R s t → step s a = some s' →
      ∃ t', R s' t' ∧ (t' = t ∨ ∃ b, step' t b = some t' ∧ (ok s a → ok' t b)))
    {t : τ} (h0 : R s t) (hr : run step s as = some s') :
    ∃ bs t', run step' t bs = some t' ∧ R s' t' ∧ (Guarded step ok s as → Guarded step' ok' t bs) := by
  induction as generalizing s t with
  | nil =>
    cases hr
    exact ⟨[], t, rfl, h0, fun _ => trivial⟩
  | cons a as ih =>
    obtain ⟨s₁, h1, h2⟩ := run_cons hr
    obtain ⟨t₁, hR, rfl | ⟨b, hb, hok⟩⟩ := hstep s t a s₁ h0 h1
    · obtain ⟨bs, t', hrun, hR', hg⟩ := ih hR h2
      exact ⟨bs, t', hrun, hR', fun h => hg (h.2 s₁ h1)⟩
    · obtain ⟨bs, t', hrun, hR', hg⟩ := ih hR h2
      refine ⟨b :: bs, t', ?_, hR', fun h => guarded_cons (hok h.1) hb (hg (h.2 s₁ h1))⟩
      rw [run, hb]
      exact hrun

variable (step) in
/-- What `label` shows of the steps of a run, one after the other. -/
def trace {β : Type*} (label : σ → α → List β) : σ → List α → List β
  | _, [] => []
  | s, a :: as => label s a ++ ((step s a).map (trace label · as)).getD []

/-- An invariant of the state together with what the steps that led to it have shown. -/
theorem invariant_of_trace {β : Type*} {label : σ → α → List β} {I : List β → σ → Prop}
    (hstep : ∀ bs s a s', I bs s → step s a = some s' → I (bs ++ label s a) s')
    (h0 : I [] s) (hr : run step s as = some s') : I (trace step label s as) s' := by
  suffices h : ∀ bs, I bs s → I (bs ++ trace step label s as) s' from h [] h0
  clear h0
  induction as generalizing s with
  | nil =>
    intro bs hI
    cases hr
    rwa [trace, List.append_nil]
  | cons a as ih =>
    intro bs hI
    obtain ⟨s₁, h1, h2⟩ := run_cons hr
    rw [trace, h1, Option.map_some, Option.getD_some, ← List.append_assoc]
    exact ih h2 _ (hstep bs s a s₁ hI h1)

end Lts

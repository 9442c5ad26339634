-- Runs of a machine whose step is a partial function. A list of events takes a
-- state to the state it ends in, or to nothing when one of them cannot happen.
-- The rules below carry a fact about one step to every state of a run.
import Mathlib.Data.List.Infix
import Mathlib.Data.List.Induction

namespace Runs

variable {S E : Type} (step : S → E → Option S)

/-- The state that the events `es` lead to from `s`. -/
def run (s : S) : List E → Option S
  | [] => some s
  | e :: es => (step s e).bind (fun t => run t es)

/-- `P` holds in every state that the run passes through, the last one included. -/
def EveryState (P : S → Prop) (s : S) (es : List E) : Prop :=
  ∀ before, before <+: es → ∀ t, run step s before = some t → P t

/-- `ok` holds of every event of the run, the events before it and the state that it meets. -/
def EveryStep (ok : List E → S → E → Prop) (s : S) (es : List E) : Prop :=
  ∀ before e, before ++ [e] <+: es → ∀ t, run step s before = some t → ok before t e

variable {step}

@[simp] theorem run_nil (s : S) : run step s [] = some s := rfl

theorem run_append (s : S) (es fs : List E) :
    run step s (es ++ fs) = (run step s es).bind (fun t => run step t fs) := by
  induction es generalizing s with
  | nil => simp
  | cons e es ih =>
    simp only [List.cons_append, run, ih]
    cases step s e <;> rfl

theorem run_snoc (s : S) (es : List E) (e : E) :
    run step s (es ++ [e]) = (run step s es).bind (fun t => step t e) := by
  rw [run_append]
  congr 1
  funext t
  simp [run]

/-- The last step of a run. -/
theorem run_snoc_some {s u : S} {es : List E} {e : E} (h : run step s (es ++ [e]) = some u) :
    ∃ t, run step s es = some t ∧ step t e = some u := by
  rw [run_snoc] at h
  exact Option.bind_eq_some_iff.mp h

theorem EveryStep.of_prefix {ok : List E → S → E → Prop} {s : S} {es fs : List E}
    (h : EveryStep step ok s fs) (hp : es <+: fs) : EveryStep step ok s es :=
  fun before e he t ht => h before e (he.trans hp) t ht

@[simp] theorem everyStep_nil (ok : List E → S → E → Prop) (s : S) : EveryStep step ok s [] := by
  intro before e hpre
  simp at hpre

theorem EveryState.nil {P : S → Prop} {s : S} (h : P s) : EveryState step P s [] := by
  intro before hpre t ht
  obtain rfl := List.prefix_nil.mp hpre
  cases ht
  exact h

theorem EveryState.cons {P : S → Prop} {s t : S} {e : E} {es : List E} (hfirst : P s)
    (hstep : step s e = some t) (hrest : EveryState step P t es) :
    EveryState step P s (e :: es) := by
  intro before hpre u hu
  cases before with
  | nil =>
    cases hu
    exact hfirst
  | cons e' before =>
    obtain ⟨rfl, hpre'⟩ := List.cons_prefix_cons.mp hpre
    obtain ⟨t', ht, hu'⟩ := Option.bind_eq_some_iff.mp hu
    rw [hstep] at ht
    cases ht
    exact hrest before hpre' u hu'

/-- A run is checked from its first step on. -/
theorem EveryStep.cons {ok : List E → S → E → Prop} {s t : S} {e : E} {es : List E}
    (hfirst : ok [] s e) (hstep : step s e = some t)
    (hrest : EveryStep step (fun b => ok (e :: b)) t es) : EveryStep step ok s (e :: es) := by
  intro before f hpre u hu
  cases before with
  | nil =>
    obtain ⟨rfl, -⟩ := List.cons_prefix_cons.mp hpre
    cases hu
    exact hfirst
  | cons e' before =>
    obtain ⟨rfl, hpre'⟩ := List.cons_prefix_cons.mp hpre
    obtain ⟨t', ht, hu'⟩ := Option.bind_eq_some_iff.mp hu
    rw [hstep] at ht
    cases ht
    exact hrest before f hpre' u hu'

theorem EveryStep.snoc {ok : List E → S → E → Prop} {s : S} {es : List E} {e : E}
    (h : EveryStep step ok s es) (hlast : ∀ t, run step s es = some t → ok es t e) :
    EveryStep step ok s (es ++ [e]) := by
  intro before f hpre t ht
  rcases List.prefix_concat_iff.mp hpre with heq | hpre'
  · obtain ⟨rfl, hef⟩ := List.append_inj' heq rfl
    cases hef
    exact hlast t ht
  · exact h before f hpre' t ht

/-- A condition on the events alone. -/
theorem EveryStep.of_forall_mem {p : E → Prop} {s : S} {es : List E} (h : ∀ e ∈ es, p e) :
    EveryStep step (fun _ _ e => p e) s es := by
  intro before e hpre t _
  exact h e (hpre.subset (by simp))

theorem EveryStep.and {p q : List E → S → E → Prop} {s : S} {es : List E}
    (hp : EveryStep step p s es) (hq : EveryStep step q s es) :
    EveryStep step (fun before t e => p before t e ∧ q before t e) s es :=
  fun before e hpre t ht => ⟨hp before e hpre t ht, hq before e hpre t ht⟩

/-- A fact about the events so far and the state holds after every run whose steps all meet
`ok`, once it holds at the start and each such step keeps it. -/
theorem run_induction_where {ok : List E → S → E → Prop} {P : List E → S → Prop} {s : S}
    (hstart : P [] s)
    (hstep : ∀ es t e u, P es t → ok es t e → step t e = some u → P (es ++ [e]) u)
    {es : List E} {u : S} (hok : EveryStep step ok s es) (h : run step s es = some u) :
    P es u := by
  induction es using List.reverseRecOn generalizing u with
  | nil => cases h; exact hstart
  | append_singleton es e ih =>
    obtain ⟨t, ht, hu⟩ := run_snoc_some h
    have hP := ih (hok.of_prefix (List.prefix_append _ _)) ht
    exact hstep es t e u hP (hok es e (List.prefix_refl _) t ht) hu

/-- The same with no condition on the steps. -/
theorem run_induction {P : List E → S → Prop} {s : S} (hstart : P [] s)
    (hstep : ∀ es t e u, P es t → step t e = some u → P (es ++ [e]) u)
    {es : List E} {u : S} (h : run step s es = some u) : P es u := by
  have hok : EveryStep step (fun _ _ _ => True) s es := fun _ _ _ _ _ => trivial
  exact run_induction_where hstart (fun es t e u hP _ hu => hstep es t e u hP hu) hok h

/-- An invariant of every step is an invariant of every run. -/
theorem run_invariant {P : S → Prop} {s : S} (hstart : P s)
    (hstep : ∀ t e u, P t → step t e = some u → P u)
    {es : List E} {u : S} (h : run step s es = some u) : P u :=
  run_induction (P := fun _ => P) hstart (fun _ => hstep) h

end Runs

import Mathlib

/-!
# Runs of an event-driven system

A system is a function `step` from a state and an event to the next state. `Along P step s es`
says that `P` holds of every event of the run `es` in the state in which the event arrives; it is
how the hypotheses of a run, and the properties of its steps, are stated.
-/

namespace Run

variable {σ ε : Type} {step : σ → ε → σ} {P Q : σ → ε → Prop}

/-- The state after the events `es`. -/
def exec (step : σ → ε → σ) (s : σ) (es : List ε) : σ := es.foldl step s

/-- Every event of the run meets `P` when it arrives. -/
def Along (P : σ → ε → Prop) (step : σ → ε → σ) : σ → List ε → Prop
  | _, [] => True
  | s, e :: es => P s e ∧ Along P step (step s e) es

instance Along.decidable [∀ s e, Decidable (P s e)] : ∀ s es, Decidable (Along P step s es)
  | _, [] => inferInstanceAs (Decidable True)
  | s, e :: es => @instDecidableAnd _ _ _ (Along.decidable (step s e) es)

@[simp] theorem exec_nil (s : σ) : exec step s [] = s := rfl

@[simp] theorem exec_cons (s : σ) (e : ε) (es : List ε) :
    exec step s (e :: es) = exec step (step s e) es := rfl

theorem exec_append (s : σ) (es es' : List ε) :
    exec step s (es ++ es') = exec step (exec step s es) es' := List.foldl_append

variable {s : σ} {es : List ε}

theorem along_append {es' : List ε} :
    Along P step s (es ++ es') ↔ Along P step s es ∧ Along P step (exec step s es) es' := by
  induction es generalizing s with
  | nil => simp [Along]
  | cons e es ih => simp [Along, ih, and_assoc]

theorem along_and : Along (fun s e => P s e ∧ Q s e) step s es ↔ Along P step s es ∧
    Along Q step s es := by
  induction es generalizing s with
  | nil => simp [Along]
  | cons e es ih =>
    simp only [Along, ih]
    tauto

theorem along_of_forall (h : ∀ s, ∀ e ∈ es, P s e) : Along P step s es := by
  induction es generalizing s with
  | nil => trivial
  | cons e es ih => exact ⟨h s e (by simp), ih fun s e he => h s e (by simp [he])⟩

/-- An invariant that every permitted event keeps holds after every run of permitted events. -/
theorem invariant (I : σ → Prop) (hstep : ∀ s e, I s → P s e → I (step s e)) (hs : I s)
    (h : Along P step s es) : I (exec step s es) := by
  induction es generalizing s with
  | nil => exact hs
  | cons e es ih => exact ih (hstep s e hs h.1) h.2

/-- What the invariant gives for a single event holds along the whole run. -/
theorem along_of_invariant (I : σ → Prop) (hstep : ∀ s e, I s → P s e → I (step s e))
    (hQ : ∀ s e, I s → P s e → Q s e) (hs : I s) (h : Along P step s es) : Along Q step s es := by
  induction es generalizing s with
  | nil => trivial
  | cons e es ih => exact ⟨hQ s e hs h.1, ih (hstep s e hs h.1) h.2⟩

/-- A property that an event keeps exactly when it meets `P` holds in every state of a run exactly
when all its events meet `P`. -/
theorem forall_exec_iff_along (I J : σ → Prop) (hJ : ∀ s e, J s → J (step s e))
    (hI : ∀ s e, J s → I s → (I (step s e) ↔ P s e)) (hs : I s) (hj : J s) :
    (∀ es', es' <+: es → I (exec step s es')) ↔ Along P step s es := by
  induction es generalizing s with
  | nil =>
    refine ⟨fun _ => trivial, fun _ es' hes' => ?_⟩
    rw [List.prefix_nil.mp hes']
    exact hs
  | cons e es ih =>
    constructor
    · intro h
      have he : I (step s e) := h [e] (by simp)
      refine ⟨(hI s e hj hs).mp he, (ih he (hJ s e hj)).mp fun es' hes' => ?_⟩
      exact h (e :: es') (List.prefix_cons_inj e |>.mpr hes')
    · rintro ⟨he, hes⟩ es' hes'
      have hstep := (hI s e hj hs).mpr he
      rcases List.prefix_cons_iff.mp hes' with rfl | ⟨es'', rfl, hes''⟩
      · exact hs
      · exact (ih hstep (hJ s e hj)).mpr hes es'' hes''

end Run

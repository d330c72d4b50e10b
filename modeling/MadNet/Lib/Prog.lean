import Mathlib

/-!
# Stateful programs that keep their state on failure

A Go method that mutates its receiver and returns an error leaves the mutations behind. `EStateM`
without backtracking is that monad. This file gives it a weakest precondition with one
postcondition for a normal return and one for an error, and the rules by which the precondition of
a compound program is computed from those of its parts.
-/

namespace Prog

variable {σ τ ε α β γ : Type}

/-- From `s`, a return of `x` meets `Q` and an error of `x` meets `R`. -/
def wp (x : EStateM ε σ α) (Q : α → σ → Prop) (R : ε → σ → Prop) (s : σ) : Prop :=
  match x s with
  | .ok a s' => Q a s'
  | .error e s' => R e s'

/-- Run `x` on a part of the state. -/
def zoom (get : σ → τ) (set : τ → σ → σ) (x : EStateM ε τ α) : EStateM ε σ α := fun s =>
  match x (get s) with
  | .ok a t => .ok a (set t s)
  | .error e t => .error e (set t s)

/-- Run `x` and hand its error to the caller as a value; the state stays as `x` left it. -/
def attempt (x : EStateM ε σ α) : EStateM ε σ (Except ε α) := fun s =>
  match x s with
  | .ok a s' => .ok (.ok a) s'
  | .error e s' => .ok (.error e) s'

/-- The state `x` leaves behind, whether it returns or fails. -/
def after (x : EStateM ε σ α) (s : σ) : σ :=
  match x s with
  | .ok _ s' => s'
  | .error _ s' => s'

/-! ## Execution -/

section Execute

variable {s : σ}

theorem bind_apply (x : EStateM ε σ β) (f : β → EStateM ε σ α) : (x >>= f) s = match x s with
      | .ok b s' => f b s'
      | .error e s' => .error e s' := by
  simp only [bind, EStateM.bind]
  cases x s <;> rfl

theorem map_apply (x : EStateM ε σ β) (f : β → α) : (f <$> x) s = match x s with
      | .ok b s' => .ok (f b) s'
      | .error e s' => .error e s' := by
  simp only [Functor.map, EStateM.map]
  cases x s <;> rfl

@[simp] theorem pure_apply (a : α) : (pure a : EStateM ε σ α) s = .ok a s := rfl

@[simp] theorem throw_apply (e : ε) : (throw e : EStateM ε σ α) s = .error e s := rfl

@[simp] theorem get_apply : (get : EStateM ε σ σ) s = .ok s s := rfl

@[simp] theorem modify_apply (f : σ → σ) : (modify f : EStateM ε σ PUnit) s = .ok ⟨⟩ (f s) := rfl

@[simp] theorem ofExcept_ok_apply (a : α) :
    (MonadExcept.ofExcept (.ok a : Except ε α) : EStateM ε σ α) s = .ok a s := rfl

@[simp] theorem ofExcept_error_apply (e : ε) :
    (MonadExcept.ofExcept (.error e : Except ε α) : EStateM ε σ α) s = .error e s := rfl

theorem attempt_apply (x : EStateM ε σ α) : attempt x s = match x s with
      | .ok a s' => .ok (.ok a) s'
      | .error e s' => .ok (.error e) s' := rfl

variable {x : Except ε α} {f : α → Except ε β}

theorem bind_eq_ok {b : β} : x >>= f = .ok b ↔ ∃ a, x = .ok a ∧ f a = .ok b := by
  cases x <;> simp [bind, Except.bind]

/-- The error, whatever the type of the results. -/
def errorOf : Except ε α → Option ε
  | .ok _ => none
  | .error e => some e

theorem eq_error_of_errorOf {e : ε} (h : errorOf x = some e) : x = .error e := by
  cases x with
  | ok a => cases h
  | error e' => rw [Option.some.inj h]

theorem exists_ok_of_isOk (h : x.isOk) : ∃ a, x = .ok a := by
  cases x with
  | ok a => exact ⟨a, rfl⟩
  | error e => cases h

theorem bind_ok {b : β} (h : x >>= f = .ok b) : ∃ a, x = .ok a ∧ f a = .ok b := bind_eq_ok.mp h

theorem bind₂_ok {g : α → β → Except ε γ} {c : γ}
    (h : (x >>= fun a => f a >>= g a) = .ok c) : ∃ a b, x = .ok a ∧ f a = .ok b ∧
      g a b = .ok c := by
  obtain ⟨a, hx, h⟩ := bind_ok h
  obtain ⟨b, hf, h⟩ := bind_ok h
  exact ⟨a, b, hx, hf, h⟩

theorem ok_bind (a : α) (f : α → Except ε β) : (Except.ok a >>= f) = f a := rfl

theorem except_bind_eq_error {e : ε} :
    x >>= f = .error e ↔ x = .error e ∨ ∃ a, x = .ok a ∧ f a = .error e := by
  cases x <;> simp [bind, Except.bind]

theorem except_exists_bind {a : α} (hx : x = .ok a) (hf : ∃ b, f a = .ok b) :
    ∃ b, x >>= f = .ok b := by
  obtain ⟨b, hb⟩ := hf
  exact ⟨b, bind_eq_ok.mpr ⟨a, hx, hb⟩⟩

theorem except_map_eq_ok {x : Except ε α} {f : α → β} {b : β} :
    x.map f = .ok b ↔ ∃ a, x = .ok a ∧ f a = b := by
  cases x <;> simp [Except.map]

variable {xs : List α}

theorem forM_eq_ok_iff {f : α → Except ε Unit} : xs.forM f = .ok () ↔ ∀ x ∈ xs, f x = .ok () := by
  induction xs with
  | nil => simp [pure, Except.pure]
  | cons x xs ih =>
    rw [List.forM, bind_eq_ok, List.forall_mem_cons, ih]
    exact ⟨fun ⟨_, h⟩ => h, fun h => ⟨(), h⟩⟩

theorem forM_eq_ok {f : α → Except ε Unit} (h : xs.forM f = .ok ()) : ∀ x ∈ xs, f x = .ok () :=
  forM_eq_ok_iff.mp h

/-- A loop that may fail keeps what each of its rounds keeps. -/
theorem foldlM_invariant {f : σ → α → Except ε σ} (I : σ → Prop)
    (hf : ∀ {s x s'}, f s x = .ok s' → I s → I s') {s' : σ}
    (h : xs.foldlM f s = .ok s') (hs : I s) : I s' := by
  induction xs generalizing s with
  | nil =>
    cases h
    exact hs
  | cons x xs ih =>
    obtain ⟨s₁, hx, hxs⟩ := bind_ok h
    exact ih hxs (hf hx hs)

/-- A loop none of whose rounds fails. -/
theorem foldlM_ok (f : σ → α → Except ε σ) (g : σ → α → σ) (xs : List α) (s : σ)
    (h : ∀ x ∈ xs, ∀ s, f s x = .ok (g s x)) : xs.foldlM f s = .ok (xs.foldl g s) := by
  induction xs generalizing s with
  | nil => rfl
  | cons x xs ih =>
    rw [List.foldlM_cons, h x (by simp)]
    exact ih _ fun y hy => h y (by simp [hy])

variable {ys : List β}

theorem mapM_eq_ok (h : xs.mapM f = .ok ys) : List.Forall₂ (fun x y => f x = .ok y) xs ys := by
  induction xs generalizing ys with
  | nil =>
    cases h
    exact .nil
  | cons x xs ih =>
    rw [List.mapM_cons] at h
    obtain ⟨y, hy, h⟩ := bind_ok h
    obtain ⟨ys', hys, h⟩ := bind_ok h
    cases h
    exact .cons hy (ih hys)

theorem mapM_eq_error {e : ε} (h : xs.mapM f = .error e) : ∃ x ∈ xs, f x = .error e := by
  induction xs with
  | nil => cases h
  | cons x xs ih =>
    rw [List.mapM_cons] at h
    rcases except_bind_eq_error.mp h with h | ⟨y, -, h⟩
    · exact ⟨x, by simp, h⟩
    · rcases except_bind_eq_error.mp h with h | ⟨ys, -, h⟩
      · obtain ⟨x', hx', h⟩ := ih h
        exact ⟨x', by simp [hx'], h⟩
      · cases h

theorem mapM_ok {g : α → β} (h : ∀ x ∈ xs, f x = .ok (g x)) : xs.mapM f = .ok (xs.map g) := by
  induction xs with
  | nil => rfl
  | cons x xs ih =>
    rw [List.mapM_cons, h x (by simp), ih fun y hy => h y (by simp [hy])]
    rfl

theorem exists_of_mem_left {P : α → β → Prop}
    (h : List.Forall₂ P xs ys) {x : α} (hx : x ∈ xs) : ∃ y ∈ ys, P x y := by
  induction h with
  | nil => cases hx
  | cons hxy _ ih =>
    rcases List.mem_cons.mp hx with rfl | hx
    · exact ⟨_, by simp, hxy⟩
    · obtain ⟨y, hy, hP⟩ := ih hx
      exact ⟨y, by simp [hy], hP⟩

theorem exists_of_mem_right {P : α → β → Prop}
    (h : List.Forall₂ P xs ys) {y : β} (hy : y ∈ ys) : ∃ x ∈ xs, P x y :=
  exists_of_mem_left h.flip hy

theorem exists_mapM_ok (h : ∀ x ∈ xs, ∃ y, f x = .ok y) : ∃ ys, xs.mapM f = .ok ys := by
  induction xs with
  | nil => exact ⟨[], rfl⟩
  | cons x xs ih =>
    obtain ⟨y, hy⟩ := h x (by simp)
    obtain ⟨ys, hys⟩ := ih fun x' hx' => h x' (by simp [hx'])
    refine ⟨y :: ys, ?_⟩
    rw [List.mapM_cons]
    exact bind_eq_ok.mpr ⟨y, hy, bind_eq_ok.mpr ⟨ys, hys, rfl⟩⟩

end Execute

/-! ## Rules -/

section Rules

variable {Q Q' : α → σ → Prop} {R R' : ε → σ → Prop} {s : σ}

theorem wp_mono {x : EStateM ε σ α} (h : wp x Q R s) (hQ : ∀ a s', Q a s' → Q' a s')
    (hR : ∀ e s', R e s' → R' e s') : wp x Q' R' s := by
  unfold wp at h ⊢
  split at h
  · exact hQ _ _ h
  · exact hR _ _ h

@[simp] theorem wp_pure (a : α) : wp (pure a : EStateM ε σ α) Q R s ↔ Q a s := Iff.rfl

@[simp] theorem wp_throw (e : ε) : wp (throw e : EStateM ε σ α) Q R s ↔ R e s := Iff.rfl

@[simp] theorem wp_bind (x : EStateM ε σ β) (f : β → EStateM ε σ α) :
    wp (x >>= f) Q R s ↔ wp x (fun b => wp (f b) Q R) R s := by
  simp only [wp, bind, EStateM.bind]
  cases x s <;> rfl

@[simp] theorem wp_map (x : EStateM ε σ β) (f : β → α) :
    wp (f <$> x) Q R s ↔ wp x (fun b => Q (f b)) R s := by
  simp only [wp, Functor.map, EStateM.map]
  cases x s <;> rfl

@[simp] theorem wp_get {Q : σ → σ → Prop} : wp (get : EStateM ε σ σ) Q R s ↔ Q s s := Iff.rfl

@[simp] theorem wp_modify {Q : PUnit → σ → Prop} (f : σ → σ) :
    wp (modify f : EStateM ε σ PUnit) Q R s ↔ Q ⟨⟩ (f s) := Iff.rfl

@[simp] theorem wp_ite {p : Prop} [Decidable p] (x y : EStateM ε σ α) :
    wp (if p then x else y) Q R s ↔ (p → wp x Q R s) ∧ (¬p → wp y Q R s) := by
  split <;> simp_all

@[simp] theorem wp_zoom (get : σ → τ) (set : τ → σ → σ) (x : EStateM ε τ α) :
    wp (zoom get set x) Q R s ↔
      wp x (fun a t => Q a (set t s)) (fun e t => R e (set t s)) (get s) := by
  simp only [wp, zoom]
  cases x (get s) <;> rfl

@[simp] theorem wp_attempt {Q : Except ε α → σ → Prop} (x : EStateM ε σ α) :
    wp (attempt x) Q R s ↔ wp x (fun a => Q (.ok a)) (fun e => Q (.error e)) s := by
  simp only [wp, attempt]
  cases x s <;> rfl

@[simp] theorem wp_ofExcept (x : Except ε α) : wp (MonadExcept.ofExcept x : EStateM ε σ α) Q R s ↔
      (∀ a, x = .ok a → Q a s) ∧ (∀ e, x = .error e → R e s) := by
  cases x <;> simp [MonadExcept.ofExcept]

theorem wp_of_ok {x : EStateM ε σ α} {a s'} (h : x s = .ok a s') : wp x Q R s ↔ Q a s' := by
  simp [wp, h]

theorem wp_of_error {x : EStateM ε σ α} {e s'} (h : x s = .error e s') : wp x Q R s ↔ R e s' := by
  simp [wp, h]

theorem after_of_wp {x : EStateM ε σ α} {P : σ → Prop}
    (h : wp x (fun _ s' => P s') (fun _ s' => P s') s) : P (after x s) := by
  simp only [wp, after] at h ⊢
  cases hx : x s <;> simpa only [hx] using h

end Rules

end Prog

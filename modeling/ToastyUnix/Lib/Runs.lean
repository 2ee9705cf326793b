import Mathlib

/-!
# Runs of a deterministic machine

A machine is a step function on states and actions. `Meets` says that every action of a run meets a
condition in the state in which it is taken, and `Always` that every state of a run, the first and
the last one included, has a property. The rules lead from one step to whole runs. `lift` makes a
machine of a step that can fail.
-/

namespace ToastyUnix.Runs

variable {S A : Type*}

section Definitions

variable (step : S → A → S)

/-- The actions in order. -/
def run (s : S) (actions : List A) : S := actions.foldl step s

def Meets (cond : S → A → Prop) : S → List A → Prop
  | _, [] => True
  | s, a :: actions => cond s a ∧ Meets cond (step s a) actions

def Always (P : S → Prop) : S → List A → Prop
  | s, [] => P s
  | s, a :: actions => P s ∧ Always P (step s a) actions

end Definitions

variable {step : S → A → S} {cond : S → A → Prop} {I P Q : S → Prop} {s : S} {actions : List A}

instance decidableMeets [∀ s a, Decidable (cond s a)] :
    (s : S) → (actions : List A) → Decidable (Meets step cond s actions)
  | _, [] => .isTrue trivial
  | s, a :: actions =>
    have := decidableMeets (step s a) actions
    inferInstanceAs (Decidable (cond s a ∧ Meets step cond (step s a) actions))

instance decidableAlways [∀ s, Decidable (P s)] :
    (s : S) → (actions : List A) → Decidable (Always step P s actions)
  | s, [] => inferInstanceAs (Decidable (P s))
  | s, a :: actions =>
    have := decidableAlways (step s a) actions
    inferInstanceAs (Decidable (P s ∧ Always step P (step s a) actions))

theorem Always.head (h : Always step P s actions) : P s := by
  cases actions with
  | nil => exact h
  | cons a actions => exact h.1

theorem Always.last (h : Always step P s actions) : P (run step s actions) := by
  induction actions generalizing s with
  | nil => exact h
  | cons a actions ih => exact ih h.2

theorem Always.mono (h : Always step P s actions) (hPQ : ∀ s, P s → Q s) :
    Always step Q s actions := by
  induction actions generalizing s with
  | nil => exact hPQ s h
  | cons a actions ih => exact ⟨hPQ s h.1, ih h.2⟩

theorem Meets.of_forall (h : ∀ s a, cond s a) (s : S) (actions : List A) :
    Meets step cond s actions := by
  induction actions generalizing s with
  | nil => trivial
  | cons a actions ih => exact ⟨h s a, ih _⟩

theorem meets_append {actions' : List A} : Meets step cond s (actions ++ actions') ↔
    Meets step cond s actions ∧ Meets step cond (run step s actions) actions' := by
  induction actions generalizing s with
  | nil => simp [Meets, run]
  | cons a actions ih =>
    rw [List.cons_append, Meets, Meets, ih, and_assoc]
    rfl

section

variable (hmeets : Meets step cond s actions)
include hmeets

/-- A property that every step under the condition keeps holds all along a run under it. -/
theorem Meets.always (hs : P s)
    (hstep : ∀ s a, cond s a → P s → P (step s a)) : Always step P s actions := by
  induction actions generalizing s with
  | nil => exact hs
  | cons a actions ih => exact ⟨hs, ih hmeets.2 (hstep s a hmeets.1 hs)⟩

/-- What follows from the condition in states with a property holds at every action of a run all
along which it holds. -/
theorem Meets.imp_of_always {cond' : S → A → Prop}
    (halways : Always step P s actions) (himp : ∀ s a, cond s a → P s → cond' s a) :
    Meets step cond' s actions := by
  induction actions generalizing s with
  | nil => trivial
  | cons a actions ih => exact ⟨himp s a hmeets.1 halways.1, ih hmeets.2 halways.2⟩

/-- An invariant that every step under the condition keeps, from a state with a property to a state
with it, holds after a run all along which the property holds. -/
theorem Meets.run_of_always (halways : Always step P s actions) (hI : I s)
    (hstep : ∀ s a, cond s a → P s → P (step s a) → I s → I (step s a)) :
    I (run step s actions) := by
  induction actions generalizing s with
  | nil => exact hI
  | cons a actions ih =>
    exact ih hmeets.2 halways.2 (hstep s a hmeets.1 halways.1 halways.2.head hI)

end

/-- When steps with the invariant keep the property exactly under the condition, so do whole runs.
-/
theorem always_iff_meets (hI : I s) (hs : P s) (hkeep : ∀ s a, I s → I (step s a))
    (hstep : ∀ s a, I s → P s → (P (step s a) ↔ cond s a)) :
    Always step P s actions ↔ Meets step cond s actions := by
  induction actions generalizing s with
  | nil => exact ⟨fun _ ↦ trivial, fun _ ↦ hs⟩
  | cons a actions ih =>
    constructor
    · intro h
      have hnext : P (step s a) := h.2.head
      exact ⟨(hstep s a hI hs).mp hnext, (ih (hkeep s a hI) hnext).mp h.2⟩
    · intro h
      have hnext : P (step s a) := (hstep s a hI hs).mpr h.1
      exact ⟨hs, (ih (hkeep s a hI) hnext).mpr h.2⟩

/-! ## Machines whose step can fail -/

/-- The step of a machine that stays failed. -/
def lift (step : S → A → Option S) (s : Option S) (a : A) : Option S := s >>= fun s ↦ step s a

theorem run_lift (step : S → A → Option S) (s : S) (actions : List A) :
    run (lift step) (some s) actions = actions.foldlM step s := by
  have hfailed : ∀ actions : List A, run (lift step) none actions = none := by
    intro actions
    induction actions with
    | nil => rfl
    | cons a actions ih => exact ih
  induction actions generalizing s with
  | nil => rfl
  | cons a actions ih =>
    change run (lift step) (step s a) actions = step s a >>= fun s ↦ actions.foldlM step s
    cases step s a with
    | none => exact hfailed actions
    | some s' => exact ih s'

end ToastyUnix.Runs

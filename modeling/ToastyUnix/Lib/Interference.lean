import Mathlib

/-!
# Programs under interference

A sequential program that shares its state with other parties, whose events may come between any
two of its commands. `Ensures` is the weakest precondition of a program, for every interference
that keeps to a relation `R` between the state before and after, the rely of the program.

The rules for triples `Triple` are those of Hoare logic, with assertions that `R` keeps.
`Triple.run` is their soundness: whatever the schedule, as long as every event of the others meets
a condition that implies `R`, a program that has ended has established its postcondition.
-/

namespace ToastyUnix.Interference

variable {Cmd : Type} {Res : Cmd → Type} {α β : Type}

/-- A program ends with a value, or performs a command and goes on with the result. -/
inductive Prog (Cmd : Type) (Res : Cmd → Type) (α : Type)
  | ret (a : α)
  | act (c : Cmd) (next : Res c → Prog Cmd Res α)

namespace Prog

def bind : Prog Cmd Res α → (α → Prog Cmd Res β) → Prog Cmd Res β
  | ret a, f => f a
  | act c next, f => act c fun r ↦ (next r).bind f

/-- The program that performs one command. -/
def perform (c : Cmd) : Prog Cmd Res (Res c) := act c ret

instance : Monad (Prog Cmd Res) where
  pure := ret
  bind := bind

variable {allowed : Cmd → Prop} {Q : α → Prop} {p : Prog Cmd Res α}

/-- Every command of the program is allowed, and every final value has the property. -/
def Within (allowed : Cmd → Prop) (Q : α → Prop) : Prog Cmd Res α → Prop
  | ret a => Q a
  | act c next => allowed c ∧ ∀ r, (next r).Within allowed Q

theorem Within.bind {Q' : β → Prop} {f : α → Prog Cmd Res β} (hp : p.Within allowed Q)
    (hf : ∀ a, Q a → (f a).Within allowed Q') : (p >>= f).Within allowed Q' := by
  induction p with
  | ret a => exact hf a hp
  | act c next ih => exact ⟨hp.1, fun r ↦ ih r (hp.2 r)⟩

theorem Within.mono {allowed' : Cmd → Prop} {Q' : α → Prop} (hp : p.Within allowed Q)
    (hallowed : ∀ c, allowed c → allowed' c) (hQ : ∀ a, Q a → Q' a) : p.Within allowed' Q' := by
  induction p with
  | ret a => exact hQ a hp
  | act c next ih => exact ⟨hallowed c hp.1, fun r ↦ ih r (hp.2 r)⟩

/-- The value of a program that has ended. -/
def result? : Prog Cmd Res α → Option α
  | ret a => some a
  | act _ _ => none

end Prog

/-- What a command does, given its open choices, and what an event of the others does. -/
structure Machine (S Cmd : Type) (Res : Cmd → Type) (Choice Event : Type) where
  perform : (c : Cmd) → Choice → S → Res c × S
  interfere : S → Event → S

/-- A step of the whole: the next command of the program, or an event of the others. -/
inductive Step (Choice Event : Type)
  | go (choice : Choice)
  | other (e : Event)

variable {S Choice Event : Type}

namespace Machine

def step (m : Machine S Cmd Res Choice Event) (x : S × Prog Cmd Res α) :
    Step Choice Event → S × Prog Cmd Res α
  | .go choice =>
    match x.2 with
    | .ret a => (x.1, .ret a)
    | .act c next => ((m.perform c choice x.1).2, next (m.perform c choice x.1).1)
  | .other e => (m.interfere x.1 e, x.2)

/-- The steps of a schedule in order. -/
def run (m : Machine S Cmd Res Choice Event) (x : S × Prog Cmd Res α)
    (schedule : List (Step Choice Event)) : S × Prog Cmd Res α :=
  schedule.foldl m.step x

/-- Every event of the others meets the condition in the state in which it happens. -/
def Meets (m : Machine S Cmd Res Choice Event) (cond : S → Event → Prop) :
    S × Prog Cmd Res α → List (Step Choice Event) → Prop
  | _, [] => True
  | x, .go choice :: rest => m.Meets cond (m.step x (.go choice)) rest
  | x, .other e :: rest => cond x.1 e ∧ m.Meets cond (m.step x (.other e)) rest

instance decidableMeets (m : Machine S Cmd Res Choice Event) (cond : S → Event → Prop)
    [∀ s e, Decidable (cond s e)] :
    (x : S × Prog Cmd Res α) → (schedule : List (Step Choice Event)) →
      Decidable (m.Meets cond x schedule)
  | _, [] => .isTrue trivial
  | x, .go choice :: rest => decidableMeets m cond (m.step x (.go choice)) rest
  | x, .other e :: rest =>
    have := decidableMeets m cond (m.step x (.other e)) rest
    inferInstanceAs (Decidable (cond x.1 e ∧ m.Meets cond (m.step x (.other e)) rest))

theorem meets_of_forall (m : Machine S Cmd Res Choice Event) {cond : S → Event → Prop}
    (hcond : ∀ s e, cond s e) (x : S × Prog Cmd Res α) (schedule : List (Step Choice Event)) :
    m.Meets cond x schedule := by
  induction schedule generalizing x with
  | nil => trivial
  | cons event rest ih =>
    cases event with
    | go choice => exact ih _
    | other e => exact ⟨hcond x.1 e, ih _⟩

/-- Whenever the program ends, under interference within `R`, the postcondition holds. -/
def Ensures (m : Machine S Cmd Res Choice Event) (R : S → S → Prop) :
    Prog Cmd Res α → (α → S → Prop) → S → Prop
  | .ret a, Q, s => ∀ s', R s s' → Q a s'
  | .act c next, Q, s => ∀ s', R s s' → ∀ choice,
      m.Ensures R (next (m.perform c choice s').1) Q (m.perform c choice s').2

/-- From every state of `P` the program ensures `Q`. -/
def Triple (m : Machine S Cmd Res Choice Event) (R : S → S → Prop) (P : S → Prop)
    (p : Prog Cmd Res α) (Q : α → S → Prop) : Prop :=
  ∀ s, P s → m.Ensures R p Q s

end Machine

/-- Interference within `R` keeps the assertion. -/
def Stable (R : S → S → Prop) (P : S → Prop) : Prop := ∀ s s', R s s' → P s → P s'

section Rules

variable {m : Machine S Cmd Res Choice Event} {R : S → S → Prop} {P P' : S → Prop}
  {p : Prog Cmd Res α} {Q Q' : α → S → Prop} {s s' : S}

namespace Machine

theorem Ensures.of_rely [IsTrans S R] (h : m.Ensures R p Q s) (hR : R s s') :
    m.Ensures R p Q s' := by
  cases p with
  | ret a => exact fun t ht ↦ h t (IsTrans.trans _ _ _ hR ht)
  | act c next => exact fun t ht ↦ h t (IsTrans.trans _ _ _ hR ht)

variable {f : α → Prog Cmd Res β} {a : α} {cond : S → Event → Prop}
  {schedule : List (Step Choice Event)} {bad : S → Prop}

theorem Ensures.bind [Std.Refl R] {Q : β → S → Prop}
    (h : m.Ensures R p (fun a s ↦ m.Ensures R (f a) Q s) s) : m.Ensures R (p >>= f) Q s := by
  induction p generalizing s with
  | ret a => exact h s (refl s)
  | act c next ih => exact fun s' hs' choice ↦ ih _ (h s' hs' choice)

theorem Ensures.mono (h : m.Ensures R p Q s) (hQ : ∀ a s, Q a s → Q' a s) :
    m.Ensures R p Q' s := by
  induction p generalizing s with
  | ret a => exact fun s' hs' ↦ hQ a s' (h s' hs')
  | act c next ih => exact fun s' hs' choice ↦ ih _ (h s' hs' choice)

theorem Triple.ret (hP : Stable R P) (h : ∀ s, P s → Q a s) : m.Triple R P (pure a) Q :=
  fun s hs s' hs' ↦ h s' (hP s s' hs' hs)

/-- The rule for one command: its effect, whatever the choices. -/
theorem Triple.perform {c : Cmd} {Q : Res c → S → Prop} (hP : Stable R P) (hQ : ∀ r, Stable R (Q r))
    (h : ∀ s choice, P s → Q (m.perform c choice s).1 (m.perform c choice s).2) :
    m.Triple R P (Prog.perform c) Q :=
  fun s hs s' hs' choice t ht ↦ hQ _ _ t ht (h s' choice (hP s s' hs' hs))

theorem Triple.bind [Std.Refl R] {Q' : β → S → Prop} (hp : m.Triple R P p Q)
    (hf : ∀ a, m.Triple R (Q a) (f a) Q') : m.Triple R P (p >>= f) Q' :=
  fun s hs ↦ ((hp s hs).mono fun a s ha ↦ hf a s ha).bind

theorem Triple.mono (h : m.Triple R P p Q) (hP : ∀ s, P' s → P s) (hQ : ∀ a s, Q a s → Q' a s) :
    m.Triple R P' p Q' :=
  fun s hs ↦ (h s (hP s hs)).mono hQ

/-- An assertion that allowed commands keep holds after a program within them. -/
theorem Triple.of_within {allowed : Cmd → Prop} {Q : α → Prop} (hP : Stable R P)
    (hkeep : ∀ c, allowed c → ∀ choice s, P s → P (m.perform c choice s).2)
    (hp : p.Within allowed Q) : m.Triple R P p fun a s ↦ P s ∧ Q a := by
  induction p with
  | ret a => exact fun s hs s' hs' ↦ ⟨hP s s' hs' hs, hp⟩
  | act c next ih =>
    exact fun s hs s' hs' choice ↦ ih _ (hp.2 _) _ (hkeep c hp.1 choice s' (hP s s' hs' hs))

/-- Along schedules whose events keep to the rely, what a program ensures stays ensured. -/
theorem Ensures.run [Std.Refl R] [IsTrans S R] (hcond : ∀ s e, cond s e → R s (m.interfere s e))
    (h : m.Ensures R p Q s) (hmeets : m.Meets cond (s, p) schedule) :
    m.Ensures R (m.run (s, p) schedule).2 Q (m.run (s, p) schedule).1 := by
  induction schedule generalizing s p with
  | nil => exact h
  | cons event rest ih =>
    cases event with
    | go choice =>
      cases p with
      | ret a => exact ih h hmeets
      | act c next => exact ih (h s (refl s) choice) hmeets
    | other e => exact ih (h.of_rely (hcond s e hmeets.1)) hmeets.2

theorem Triple.run [Std.Refl R] [IsTrans S R] (hcond : ∀ s e, cond s e → R s (m.interfere s e))
    (h : m.Triple R P p Q) (hs : P s) (hmeets : m.Meets cond (s, p) schedule)
    (hend : (m.run (s, p) schedule).2.result? = some a) : Q a (m.run (s, p) schedule).1 := by
  have hensures := (h s hs).run hcond hmeets
  generalize m.run (s, p) schedule = final at hensures hend ⊢
  obtain ⟨s', p'⟩ := final
  cases p' with
  | ret b =>
    obtain rfl : b = a := by simpa [Prog.result?] using hend
    exact hensures s' (refl s')
  | act c next => simp [Prog.result?] at hend

/-- What no command can undo has not happened in a state from which a program ensures that it has
not happened at the end. -/
theorem Ensures.not_of_persists [Std.Refl R] [Nonempty Choice]
    (hbad : ∀ c choice s, bad s → bad (m.perform c choice s).2)
    (h : m.Ensures R p (fun _ s ↦ ¬ bad s) s) : ¬ bad s := by
  induction p generalizing s with
  | ret a => exact h s (refl s)
  | act c next ih =>
    obtain ⟨choice⟩ := ‹Nonempty Choice›
    exact fun hs ↦ ih _ (h s (refl s) choice) (hbad c choice s hs)

/-- So it does not happen anywhere along a schedule. -/
theorem Triple.never [Std.Refl R] [IsTrans S R] [Nonempty Choice]
    (hcond : ∀ s e, cond s e → R s (m.interfere s e))
    (hbad : ∀ c choice s, bad s → bad (m.perform c choice s).2)
    (h : m.Triple R P p fun _ s ↦ ¬ bad s) (hs : P s) (hmeets : m.Meets cond (s, p) schedule) :
    ¬ bad (m.run (s, p) schedule).1 :=
  ((h s hs).run hcond hmeets).not_of_persists hbad

end Machine

end Rules

end ToastyUnix.Interference

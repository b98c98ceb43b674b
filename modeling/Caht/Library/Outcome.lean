import Mathlib.Tactic.Basic

/-! # Outcomes of a C function

A call either returns, or stops the run it belongs to: by `exit`, by a failed
`assert`, by a step with no defined meaning, or by never coming back. State is
passed explicitly, so a call that stops leaves no state behind.
-/

namespace Caht.Library

inductive Halt where
  | exit (msg : String)
  | assertion
  | undefined
  | diverges
  deriving DecidableEq, Repr

abbrev Outcome (α : Type) := Except Halt α

variable {α β : Type}

theorem bind_ok_iff {x : Outcome α} {f : α → Outcome β} {b : β} :
    x >>= f = .ok b ↔ ∃ a, x = .ok a ∧ f a = .ok b := by
  cases x with
  | error e => simp [bind, Except.bind]
  | ok a => simp [bind, Except.bind]

theorem toOption_eq_some {x : Outcome α} {a : α} : x.toOption = some a ↔ x = .ok a := by
  cases x with
  | error e => simp [Except.toOption]
  | ok b => simp [Except.toOption]

@[simp] theorem ok_bind (a : α) (f : α → Outcome β) : (Except.ok a : Outcome α) >>= f = f a := rfl

@[simp] theorem error_bind (e : Halt) (f : α → Outcome β) :
    (Except.error e : Outcome α) >>= f = .error e := rfl

/-- The run of a list of calls, each one starting where the previous one returned. -/
def runAll (f : β → α → Outcome β) : β → List α → Outcome β
  | b, [] => .ok b
  | b, a :: l => f b a >>= fun b' => runAll f b' l

theorem runAll_append (f : β → α → Outcome β) (b : β) (l l' : List α) :
    runAll f b (l ++ l') = runAll f b l >>= fun b' => runAll f b' l' := by
  induction l generalizing b with
  | nil => rfl
  | cons a l ih =>
    cases h : f b a with
    | error e => simp [runAll, h]
    | ok c => simp [runAll, h, ih]

theorem runAll_error_iff {f : β → α → Outcome β} {b : β} {l : List α} {e : Halt} :
    runAll f b l = .error e ↔
      ∃ pre a post b', l = pre ++ a :: post ∧ runAll f b pre = .ok b' ∧ f b' a = .error e := by
  constructor
  · intro h
    induction l generalizing b with
    | nil => cases h
    | cons a l ih =>
      cases hfa : f b a with
      | error e' =>
        rw [runAll, hfa, error_bind] at h
        exact ⟨[], a, l, b, rfl, rfl, hfa.trans h⟩
      | ok c =>
        rw [runAll, hfa, ok_bind] at h
        obtain ⟨pre, a', post, b', rfl, hpre, hstop⟩ := ih h
        exact ⟨a :: pre, a', post, b', rfl, bind_ok_iff.mpr ⟨c, hfa, hpre⟩, hstop⟩
  · rintro ⟨pre, a, post, b', rfl, hpre, hstop⟩
    rw [runAll_append, hpre, ok_bind, runAll, hstop, error_bind]

/-- A run returns if each call returns under `I`, which speaks of the calls that are
left and of the value they start from. -/
theorem runAll_total {f : β → α → Outcome β} {I : List α → β → Prop}
    (hstep : ∀ a l b, I (a :: l) b → ∃ b', f b a = .ok b' ∧ I l b') {l : List α} {b : β} (h : I l b) :
    ∃ b', runAll f b l = .ok b' ∧ I [] b' := by
  induction l generalizing b with
  | nil => exact ⟨b, rfl, h⟩
  | cons a l ih =>
    obtain ⟨c, hc, hI⟩ := hstep a l b h
    obtain ⟨b', hrun, hI'⟩ := ih hI
    exact ⟨b', bind_ok_iff.mpr ⟨c, hc, hrun⟩, hI'⟩

/-- A call returns a value that meets `P`, or stops in a way `E` admits. -/
def Ends (x : Outcome α) (P : α → Prop) (E : Halt → Prop) : Prop :=
  match x with
  | .ok a => P a
  | .error e => E e

section
variable {x : Outcome α} {P : α → Prop} {E : Halt → Prop}

theorem Ends.of_ok {a : α} (h : x = .ok a) (ha : P a) : Ends x P E := by
  subst h
  exact ha

theorem Ends.of_error {e : Halt} (h : x = .error e) (he : E e) : Ends x P E := by
  subst h
  exact he

theorem Ends.ok (h : Ends x P E) {a : α} (hx : x = .ok a) : P a := by
  subst hx
  exact h

theorem Ends.error (h : Ends x P E) {e : Halt} (hx : x = .error e) : E e := by
  subst hx
  exact h

theorem Ends.mono (h : Ends x P E) {Q : α → Prop} {F : Halt → Prop} (hP : ∀ a, P a → Q a)
    (hE : ∀ e, E e → F e) : Ends x Q F := by
  cases x with
  | ok a => exact hP a h
  | error e => exact hE e h

theorem Ends.bind (h : Ends x P E) {f : α → Outcome β} {Q : β → Prop}
    (hf : ∀ a, P a → Ends (f a) Q E) : Ends (x >>= f) Q E := by
  cases x with
  | ok a => exact hf a h
  | error e => exact h

end

/-! ## Two calls side by side -/

/-- The calls stop in one way, or return values that `R` relates. -/
def Related {α' : Type} (R : α → α' → Prop) (x : Outcome α) (y : Outcome α') : Prop :=
  (∃ e, x = .error e ∧ y = .error e) ∨ ∃ a a', x = .ok a ∧ y = .ok a' ∧ R a a'

theorem related_ok {α' : Type} {R : α → α' → Prop} {a : α} {a' : α'} (h : R a a') :
    Related R (.ok a) (.ok a') :=
  .inr ⟨a, a', rfl, rfl, h⟩

theorem Related.bind {α' β' : Type} {R : α → α' → Prop} {S : β → β' → Prop} {x : Outcome α}
    {y : Outcome α'} (h : Related R x y) {f : α → Outcome β} {g : α' → Outcome β'}
    (hf : ∀ a a', R a a' → Related S (f a) (g a')) : Related S (x >>= f) (y >>= g) := by
  obtain ⟨e, rfl, rfl⟩ | ⟨a, a', rfl, rfl, hR⟩ := h
  · exact .inl ⟨e, rfl, rfl⟩
  · exact hf a a' hR

end Caht.Library

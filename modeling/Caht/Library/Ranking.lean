import Mathlib.Data.List.Basic

/-! # Ranking arguments

Some steps of a machine are ticks. If a rank gets smaller with every tick and no larger
with any other step, as long as the goal has not been reached, then the goal is reached
after at most as many ticks as the rank says.
-/

namespace Caht.Library

variable {σ α : Type} {step : σ → α → Option σ} {tick : α → Bool} {Goal : σ → α → Prop}
  {R : ℕ → σ → Prop}

/-- `R n s` bounds the ticks from `s` on that do not reach the goal by `n`. -/
structure Ranked (step : σ → α → Option σ) (tick : α → Bool) (Goal : σ → α → Prop)
    (R : ℕ → σ → Prop) : Prop where
  lowers : ∀ n s a s', R n s → step s a = some s' → tick a = true → ¬ Goal s a → ∃ m < n, R m s'
  keeps : ∀ n s a s', R n s → step s a = some s' → tick a = false → ¬ Goal s a → R n s'

/-- A run with more ticks than its rank comes to a step that reaches the goal. -/
theorem Ranked.reaches (h : Ranked step tick Goal R) {as : List α} {s s' : σ} {n : ℕ} (hs : R n s)
    (hrun : as.foldlM step s = some s') (hn : n < as.countP tick) :
    ∃ as₁ a as₂ s₁, as = as₁ ++ a :: as₂ ∧ as₁.foldlM step s = some s₁ ∧ as₁.countP tick ≤ n ∧
      Goal s₁ a := by
  induction as generalizing s n with
  | nil => simp at hn
  | cons a as ih =>
    rw [List.foldlM_cons] at hrun
    obtain ⟨s₁, hstep, hrun⟩ := Option.bind_eq_some_iff.mp hrun
    by_cases hg : Goal s a
    · exact ⟨[], a, as, s, rfl, rfl, Nat.zero_le n, hg⟩
    have hnext : ∃ m, R m s₁ ∧ m < as.countP tick ∧ m + [a].countP tick ≤ n := by
      by_cases ht : tick a = true
      · obtain ⟨m, hm, hR⟩ := h.lowers n s a s₁ hs hstep ht hg
        rw [List.countP_cons_of_pos ht] at hn
        refine ⟨m, hR, by omega, ?_⟩
        rw [List.countP_cons_of_pos ht, List.countP_nil]
        exact hm
      · rw [List.countP_cons_of_neg ht] at hn
        refine ⟨n, h.keeps n s a s₁ hs hstep (Bool.eq_false_iff.mpr ht) hg, hn, ?_⟩
        rw [List.countP_cons_of_neg ht, List.countP_nil]
        exact Nat.le_refl n
    obtain ⟨m, hR, hm, hle⟩ := hnext
    obtain ⟨as₁, b, as₂, s₂, rfl, hrun₁, hcount, hgoal⟩ := ih hR hrun hm
    refine ⟨a :: as₁, b, as₂, s₂, rfl, ?_, ?_, hgoal⟩
    · rw [List.foldlM_cons, hstep]
      exact hrun₁
    · rw [← List.singleton_append, List.countP_append]
      omega

end Caht.Library

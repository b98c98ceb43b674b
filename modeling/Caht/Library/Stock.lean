import Mathlib.Order.Basic
import Mathlib.Order.Lattice

/-! # Stocks

Cells are made when they are needed and kept for reuse. If a new one is made only when
none is free, then there are never many more than were in use at one time.
-/

namespace Caht.Library

/-- The cells of one kind: how many were made, and how many of them are free. -/
structure Stock where
  made : ℕ
  free : ℕ

namespace Stock
variable {s s' t : Stock}

/-- Cells were taken, the free ones first. -/
def Draws (s s' : Stock) : Prop := (s'.made = s.made ∧ s'.free ≤ s.free) ∨ s'.free = 0

/-- At most one cell was given back. -/
def Returns (s s' : Stock) : Prop := s'.made = s.made ∧ s'.free ≤ s.free + 1

/-- Cells were taken, and after that at most one was given back. -/
def Turns (s s' : Stock) : Prop := ∃ t, s.Draws t ∧ t.Returns s'

@[refl] theorem Draws.refl (s : Stock) : s.Draws s := .inl ⟨rfl, Nat.le_refl _⟩

theorem Draws.trans (h : s.Draws t) (h' : t.Draws s') : s.Draws s' := by
  rcases h' with ⟨hmade', hfree'⟩ | hfree'
  · rcases h with ⟨hmade, hfree⟩ | hfree
    · exact .inl ⟨hmade'.trans hmade, Nat.le_trans hfree' hfree⟩
    · rw [hfree] at hfree'
      exact .inr (Nat.le_zero.mp hfree')
  · exact .inr hfree'

@[refl] theorem Returns.refl (s : Stock) : s.Returns s := ⟨rfl, Nat.le_succ _⟩

theorem Draws.turns (h : s.Draws s') : s.Turns s' := ⟨s', h, .refl s'⟩

theorem Returns.turns (h : s.Returns s') : s.Turns s' := ⟨s, .refl s, h⟩

theorem Draws.trans_turns (h : s.Draws t) (h' : t.Turns s') : s.Turns s' := by
  obtain ⟨u, hdraw, hret⟩ := h'
  exact ⟨u, h.trans hdraw, hret⟩

/-- The step of the argument: when the cells in use come to `k` at most, the ones made
stay below `k + 1`, apart from those there were at the beginning. -/
theorem Turns.made_le (h : s.Turns s') {n k : ℕ} (hs : s.made ≤ max n (k + 1))
    (hused : s'.made ≤ k + s'.free) : s'.made ≤ max n (k + 1) := by
  obtain ⟨t, ⟨hmade, -⟩ | hfree, hmade', hfree'⟩ := h
  · rw [hmade', hmade]
    exact hs
  · have hle : s'.free ≤ 1 := by rwa [hfree] at hfree'
    exact Nat.le_trans (Nat.le_trans hused (Nat.add_le_add_left hle k)) (le_max_right _ _)

end Stock

end Caht.Library

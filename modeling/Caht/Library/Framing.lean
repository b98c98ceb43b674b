import Mathlib.Data.List.Infix

/-! # Cutting a stream into frames

Values are written one after the other, with nothing between them. A reader that finds the
first value of a stream, and finds none as long as its bytes are not all there, gets back
what was written.
-/

namespace Caht.Library

variable {α β : Type}

/-- Values as long as `read` finds one. Each takes up at least one byte. -/
def readUpTo (read : List α → Option (β × List α)) : ℕ → List α → List β
  | 0, _ => []
  | fuel + 1, s =>
    match read s with
    | none => []
    | some (b, rest) => b :: readUpTo read fuel rest

def readAll (read : List α → Option (β × List α)) (s : List α) : List β := readUpTo read s.length s

/-- `read` finds what `write` wrote, and nothing in a part of it. -/
structure ReadsBack (read : List α → Option (β × List α)) (write : β → List α) : Prop where
  nonempty : ∀ b, write b ≠ []
  whole : ∀ b rest, read (write b ++ rest) = some (b, rest)
  empty : read [] = none
  cut : ∀ b s, s <+: write b → s ≠ write b → read s = none

variable {read : List α → Option (β × List α)} {write : β → List α}

theorem ReadsBack.length_le (h : ReadsBack read write) (bs : List β) :
    bs.length ≤ (bs.flatMap write).length := by
  induction bs with
  | nil => exact Nat.le_refl 0
  | cons b bs ih =>
    have hpos := List.length_pos_of_ne_nil (h.nonempty b)
    rw [List.flatMap_cons, List.length_append, List.length_cons]
    omega

/-- What has been written is read, whatever comes after it. -/
theorem ReadsBack.readUpTo_append (h : ReadsBack read write) (bs : List β) (s : List α) (n : ℕ) :
    readUpTo read (bs.length + n) (bs.flatMap write ++ s) = bs ++ readUpTo read n s := by
  induction bs with
  | nil => rw [List.length_nil, Nat.zero_add, List.flatMap_nil, List.nil_append, List.nil_append]
  | cons b bs ih =>
    rw [List.length_cons, Nat.succ_add, List.flatMap_cons, List.append_assoc, readUpTo, h.whole]
    simp only
    rw [ih, List.cons_append]

theorem readUpTo_eq_nil {s : List α} (h : read s = none) (n : ℕ) : readUpTo read n s = [] := by
  cases n with
  | zero => rfl
  | succ n => simp only [readUpTo, h]

theorem ReadsBack.readAll_append (h : ReadsBack read write) (bs : List β) {s : List α} (hs : read s = none) :
    readAll read (bs.flatMap write ++ s) = bs := by
  have hle := h.length_le bs
  obtain ⟨n, hn⟩ : ∃ n, (bs.flatMap write ++ s).length = bs.length + n :=
    Nat.exists_eq_add_of_le (hle.trans (by simp))
  rw [readAll, hn, h.readUpTo_append, readUpTo_eq_nil hs, List.append_nil]

theorem ReadsBack.readAll_prefix (h : ReadsBack read write) {bs : List β} {s : List α}
    (hs : s <+: bs.flatMap write) (hlast : bs.dropLast.flatMap write <+: s) :
    (s = bs.flatMap write ∧ readAll read s = bs) ∨
      (s ≠ bs.flatMap write ∧ readAll read s = bs.dropLast) := by
  by_cases hall : s = bs.flatMap write
  · refine .inl ⟨hall, ?_⟩
    rw [hall, ← List.append_nil (bs.flatMap write), h.readAll_append bs h.empty]
  · refine .inr ⟨hall, ?_⟩
    obtain ⟨t, rfl⟩ := hlast
    rcases List.eq_nil_or_concat bs with rfl | ⟨init, b, rfl⟩
    · exact absurd (List.prefix_nil.mp hs) hall
    · rw [List.concat_eq_append] at hs hall ⊢
      rw [List.dropLast_concat] at hs hall ⊢
      rw [List.flatMap_append, List.flatMap_singleton] at hs hall
      have ht : t <+: write b := (List.prefix_append_right_inj _).mp hs
      exact h.readAll_append init (h.cut b t ht fun he => hall (by rw [he]))

end Caht.Library

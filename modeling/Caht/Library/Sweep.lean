import Caht.Library.Probing
import Mathlib.Data.List.Forall2

/-! # Reading a table that is filled

A reader goes through the slots of a table once, from the first to the last, a few at a
time. In between empty slots may be filled, and no slot is emptied or overwritten. What
the reader gets is in slot order, without repetition, and has every key that was there
when it began.
-/

namespace Caht.Library

variable {κ : Type} [DecidableEq κ] {empty : κ} {slots slots' slots'' : List κ}

/-- Slots were filled that were empty, and that is all. -/
def Filled (empty : κ) (slots slots' : List κ) : Prop :=
  List.Forall₂ (fun v v' => v = empty ∨ v' = v) slots slots'

omit [DecidableEq κ] in
@[refl] theorem Filled.refl (empty : κ) (slots : List κ) : Filled empty slots slots :=
  List.forall₂_same.mpr fun _ _ => .inr rfl

omit [DecidableEq κ] in
theorem Filled.trans (h : Filled empty slots slots') (h' : Filled empty slots' slots'') :
    Filled empty slots slots'' := by
  induction h generalizing slots'' with
  | nil => exact h'
  | cons hv _ ih =>
    cases h' with
    | cons hv' h' =>
      refine .cons ?_ (ih h')
      rcases hv with rfl | rfl
      · exact .inl rfl
      · exact hv'

omit [DecidableEq κ] in
theorem Filled.set {i : ℕ} (hi : slots[i]? = some empty) (key : κ) :
    Filled empty slots (slots.set i key) := by
  induction slots generalizing i with
  | nil => exact .nil
  | cons v slots ih =>
    cases i with
    | zero => exact .cons (.inl (by simpa using hi)) (Filled.refl empty slots)
    | succ i => exact .cons (.inr rfl) (ih (by simpa using hi))

theorem Filled.stored_sublist (h : Filled empty slots slots') :
    (stored empty slots).Sublist (stored empty slots') := by
  induction h with
  | nil => exact .slnil
  | @cons v v' _ _ hv _ ih =>
    by_cases he : v = empty
    · subst he
      rw [stored_cons_empty]
      exact ih.trans ((List.sublist_cons_self v' _).filter _)
    · obtain rfl := hv.resolve_left he
      rw [stored_cons_of_ne he, stored_cons_of_ne he]
      exact ih.cons_cons v'

theorem stored_append (l l' : List κ) : stored empty (l ++ l') = stored empty l ++ stored empty l' :=
  List.filter_append ..

/-- The reader has passed the first `idx` of the slots, and got `out`. The slots were
`old` when it began. -/
structure Sweep (empty : κ) (old slots : List κ) (idx : ℕ) (out : List κ) : Prop where
  filled : Filled empty old slots
  got : out.Sublist (stored empty (slots.take idx))
  seen : ∀ key ∈ stored empty (old.take idx), key ∈ out

namespace Sweep
variable {old : List κ} {idx : ℕ} {out : List κ}

theorem start (empty : κ) (slots : List κ) : Sweep empty slots slots 0 [] :=
  ⟨.refl empty slots, by simp [stored], by simp [stored]⟩

theorem fill (h : Sweep empty old slots idx out) (hf : Filled empty slots slots') :
    Sweep empty old slots' idx out where
  filled := h.filled.trans hf
  got := h.got.trans (Filled.stored_sublist (List.forall₂_take idx hf))
  seen := h.seen

theorem advance (h : Sweep empty old slots idx out) {idx' : ℕ} (hle : idx ≤ idx') :
    Sweep empty old slots idx' (out ++ stored empty ((slots.drop idx).take (idx' - idx))) := by
  have hsplit : ∀ l : List κ, stored empty (l.take idx') =
      stored empty (l.take idx) ++ stored empty ((l.drop idx).take (idx' - idx)) := by
    intro l
    rw [← stored_append, ← List.take_add, Nat.add_sub_cancel' hle]
  refine ⟨h.filled, ?_, ?_⟩
  · rw [hsplit slots]
    exact h.got.append (List.Sublist.refl _)
  · intro key hkey
    rw [hsplit old] at hkey
    rcases List.mem_append.mp hkey with hkey | hkey
    · exact List.mem_append_left _ (h.seen key hkey)
    · have hsub : Filled empty ((old.drop idx).take (idx' - idx)) ((slots.drop idx).take (idx' - idx)) :=
        List.forall₂_take _ (List.forall₂_drop _ h.filled)
      exact List.mem_append_right _ (hsub.stored_sublist.mem hkey)

/-- Nothing is read twice. -/
theorem nodup (h : Sweep empty old slots idx out) (hnd : (stored empty slots).Nodup) : out.Nodup :=
  hnd.sublist (h.got.trans ((List.take_sublist idx slots).filter _))

theorem mem_stored (h : Sweep empty old slots idx out) {key : κ} (hkey : key ∈ out) :
    key ∈ stored empty slots :=
  (h.got.trans ((List.take_sublist idx slots).filter _)).mem hkey

/-- A reader at the end has all that was there when it began. -/
theorem complete (h : Sweep empty old slots idx out) (hidx : slots.length ≤ idx) {key : κ}
    (hkey : key ∈ stored empty old) : key ∈ out := by
  refine h.seen key ?_
  rwa [List.take_of_length_le (h.filled.length_eq.trans_le hidx)]

end Sweep

end Caht.Library

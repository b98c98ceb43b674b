import Caht.Library.Outcome
import Mathlib.Tactic

/-! # Arrays that double

A heap array with a capacity and a count of entries in use. It is reallocated to
twice its capacity when an entry is added to a full one. Reads and writes past the
capacity have no defined meaning, and memory a reallocation adds holds anything.
-/

namespace Caht.Library

variable {α : Type}

structure Vec (α : Type) where
  cap : ℕ
  len : ℕ
  data : List α
  deriving DecidableEq, Repr

namespace Vec

def malloc (cap : ℕ) (junk : ℕ → α) : Vec α := ⟨cap, 0, (List.range cap).map junk⟩

def load (v : Vec α) (i : ℕ) : Outcome α :=
  match v.data[i]? with
  | some a => .ok a
  | none => .error .undefined

def store (v : Vec α) (i : ℕ) (a : α) : Outcome (Vec α) :=
  if i < v.data.length then .ok { v with data := v.data.set i a } else .error .undefined

/-- `realloc` to twice the capacity keeps the entries there are. -/
def double (v : Vec α) (junk : ℕ → α) : Vec α :=
  { v with
    cap := v.cap * 2
    data := v.data ++ (List.range (v.cap * 2 - v.data.length)).map junk }

/-- `if (len == cap) grow; data[len] = a; len++;` -/
def push (v : Vec α) (a : α) (junk : ℕ → α) : Outcome (Vec α) := do
  let grown := if v.len = v.cap then v.double junk else v
  let stored ← grown.store grown.len a
  .ok { stored with len := stored.len + 1 }

/-- `a = data[len - 1]; len--;` -/
def pop (v : Vec α) : Outcome (Vec α × α) := do
  let a ← v.load (v.len - 1)
  .ok ({ v with len := v.len - 1 }, a)

/-- The entries in use are `l`, and the array has room for its capacity. -/
structure Holds (v : Vec α) (l : List α) : Prop where
  size : v.data.length = v.cap
  pos : 0 < v.cap
  len : v.len = l.length
  le : v.len ≤ v.cap
  take : v.data.take v.len = l

theorem holds_malloc {cap : ℕ} (hcap : 1 ≤ cap) (junk : ℕ → α) : (malloc cap junk).Holds [] := by
  constructor <;> simp [malloc]
  omega

section
variable {v : Vec α} {l : List α}

theorem Holds.load (h : v.Holds l) {i : ℕ} {a : α} (hi : l[i]? = some a) : v.load i = .ok a := by
  have hlt := (List.getElem?_eq_some_iff.mp hi).1
  rw [← h.take, List.getElem?_take_of_lt (h.len ▸ hlt)] at hi
  simp [Vec.load, hi]

theorem Holds.push (h : v.Holds l) (a : α) (junk : ℕ → α) :
    ∃ v', v.push a junk = .ok v' ∧ v'.Holds (l ++ [a]) ∧
      v'.cap = if l.length = v.cap then v.cap * 2 else v.cap := by
  have hpos := h.pos
  have hle := h.le
  obtain ⟨grown, hgrown⟩ : ∃ g, g = if v.len = v.cap then v.double junk else v := ⟨_, rfl⟩
  have hcap : grown.cap = if l.length = v.cap then v.cap * 2 else v.cap := by
    rw [hgrown, ← h.len]
    split <;> rfl
  have hlen : grown.len = v.len := by
    rw [hgrown]
    split <;> rfl
  have hsize : grown.data.length = grown.cap := by
    rw [hgrown]
    split
    · simp [double, h.size]
      omega
    · exact h.size
  have htake : grown.data.take v.len = l := by
    rw [← h.take, hgrown]
    split
    · rw [double, List.take_append_of_le_length (h.size ▸ hle)]
    · rfl
  have hroom : v.len < grown.cap := by
    rw [hcap, ← h.len]
    split <;> omega
  refine ⟨{ grown with data := grown.data.set v.len a, len := v.len + 1 }, ?_, ⟨?_, ?_, ?_, ?_, ?_⟩, hcap⟩
  · simp only [Vec.push, ← hgrown, Vec.store, hlen, hsize, if_pos hroom]
    rfl
  · simpa using hsize
  · simp only
    omega
  · simp [h.len]
  · simp only
    omega
  · have hset : grown.data.set v.len a = l ++ a :: grown.data.drop (v.len + 1) := by
      rw [List.set_eq_take_append_cons_drop, if_pos (hsize ▸ hroom), htake]
    rw [hset, h.len, List.take_length_add_append, List.take_succ_cons, List.take_zero]

theorem Holds.pop {a : α} (h : v.Holds (l ++ [a])) :
    ∃ v', v.pop = .ok (v', a) ∧ v'.Holds l ∧ v'.cap = v.cap := by
  have hlen := h.len
  have hle := h.le
  rw [List.length_append, List.length_singleton] at hlen
  have hload : v.load (v.len - 1) = .ok a := h.load (by simp [hlen])
  refine ⟨{ v with len := v.len - 1 }, by simp [Vec.pop, hload], ⟨h.size, h.pos, ?_, ?_, ?_⟩, rfl⟩
  · simp only
    omega
  · simp only
    omega
  · have htake := congrArg (List.take l.length) h.take
    rw [List.take_take, List.take_left, min_eq_left (by omega)] at htake
    simpa [hlen] using htake

end

end Vec

end Caht.Library

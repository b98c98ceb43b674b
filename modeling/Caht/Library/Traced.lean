import Caht.Library.Probing
import Mathlib.Data.List.Forall2

/-! # Calls with a record of what they touch

A call of a C function together with the memory cells it reads or writes, in
order. The record of a call that stops goes up to where it stops.
-/

namespace Caht.Library

structure Traced (ε α : Type) where
  log : List ε
  result : Outcome α

namespace Traced

variable {ε α β γ : Type}

def halt (e : Halt) : Traced ε α := ⟨[], .error e⟩

/-- A call that touches nothing. -/
def quiet (x : Outcome α) : Traced ε α := ⟨[], x⟩

def note (e : ε) : Traced ε Unit := ⟨[e], .ok ()⟩

instance : Monad (Traced ε) where
  pure a := ⟨[], .ok a⟩
  bind x f :=
    match x.result with
    | .ok a => ⟨x.log ++ (f a).log, (f a).result⟩
    | .error e => ⟨x.log, .error e⟩

/-- A run of calls, each one starting where the previous one returned. -/
def runAll (f : β → α → Traced ε β) : β → List α → Traced ε β
  | b, [] => pure b
  | b, a :: l => f b a >>= fun b' => runAll f b' l

@[simp] theorem halt_result (e : Halt) : (halt e : Traced ε α).result = .error e := rfl

@[simp] theorem quiet_result (x : Outcome α) : (quiet x : Traced ε α).result = x := rfl

@[simp] theorem note_result (e : ε) : (note e).result = .ok () := rfl

@[simp] theorem pure_result (a : α) : (pure a : Traced ε α).result = .ok a := rfl

@[simp] theorem pure_log (a : α) : (pure a : Traced ε α).log = [] := rfl

@[simp] theorem bind_result (x : Traced ε α) (f : α → Traced ε β) :
    (x >>= f).result = x.result >>= fun a => (f a).result := by
  obtain ⟨log, result⟩ := x
  cases result with
  | error e => rfl
  | ok a => rfl

theorem bind_log {x : Traced ε α} {a : α} (hx : x.result = .ok a) (f : α → Traced ε β) :
    (x >>= f).log = x.log ++ (f a).log := by
  obtain ⟨log, result⟩ := x
  subst hx
  rfl

theorem runAll_result (f : β → α → Traced ε β) (b : β) (l : List α) :
    (runAll f b l).result = Library.runAll (fun b a => (f b a).result) b l := by
  induction l generalizing b with
  | nil => rfl
  | cons a l ih => simp only [runAll, Library.runAll, bind_result, ih]

/-- `P` holds of every cell the call touches. -/
def Within (x : Traced ε α) (P : ε → Prop) : Prop := ∀ e ∈ x.log, P e

section
variable {P : ε → Prop}

theorem within_pure (a : α) : (pure a : Traced ε α).Within P := by
  simp [Within]

theorem within_halt (e : Halt) : (halt e : Traced ε α).Within P := by
  simp [Within, halt]

theorem Within.bind {x : Traced ε α} (hx : x.Within P) {f : α → Traced ε β}
    (hf : ∀ a, x.result = .ok a → (f a).Within P) : (x >>= f).Within P := by
  intro e he
  cases hres : x.result with
  | error err =>
    have hlog : (x >>= f).log = x.log := by
      obtain ⟨log, result⟩ := x
      subst hres
      rfl
    exact hx e (hlog ▸ he)
  | ok a =>
    rw [bind_log hres, List.mem_append] at he
    rcases he with he | he
    · exact hx e he
    · exact hf a hres e he

/-- The rule for runs: `I` is kept by each call, and keeps each call within `P`. -/
theorem runAll_within {f : β → α → Traced ε β} {I : β → Prop} {l : List α}
    (hstep : ∀ b, ∀ a ∈ l, I b → (f b a).Within P ∧ ∀ b', (f b a).result = .ok b' → I b') {b : β}
    (h : I b) : (runAll f b l).Within P := by
  induction l generalizing b with
  | nil => exact within_pure b
  | cons a l ih =>
    obtain ⟨hwithin, hnext⟩ := hstep b a List.mem_cons_self h
    exact hwithin.bind fun b' hb' =>
      ih (fun b a ha => hstep b a (List.mem_cons_of_mem _ ha)) (hnext b' hb')

end

/-! ## Two calls side by side -/

/-- The calls have one record, and stop in one way or return values that `R` relates. -/
def Alike {α' : Type} (R : α → α' → Prop) (x : Traced ε α) (y : Traced ε α') : Prop :=
  x.log = y.log ∧ Related R x.result y.result

section
variable {α' β' γ' : Type} {R : α → α' → Prop} {S : β → β' → Prop}

theorem alike_pure {a : α} {a' : α'} (h : R a a') :
    Alike R (pure a : Traced ε α) (pure a' : Traced ε α') :=
  ⟨rfl, related_ok h⟩

theorem alike_quiet {x : Outcome α} {y : Outcome α'} (h : Related R x y) :
    Alike R (quiet x : Traced ε α) (quiet y : Traced ε α') :=
  ⟨rfl, h⟩

theorem alike_note (e : ε) : Alike (fun _ _ => True) (note e) (note e) :=
  ⟨rfl, related_ok trivial⟩

theorem Alike.bind {x : Traced ε α} {y : Traced ε α'} (h : Alike R x y) {f : α → Traced ε β}
    {g : α' → Traced ε β'} (hf : ∀ a a', R a a' → Alike S (f a) (g a')) :
    Alike S (x >>= f) (y >>= g) := by
  obtain ⟨log, result⟩ := x
  obtain ⟨log', result'⟩ := y
  obtain ⟨rfl, ⟨e, rfl, rfl⟩ | ⟨a, a', rfl, rfl, hR⟩⟩ := h
  · exact ⟨rfl, .inl ⟨e, rfl, rfl⟩⟩
  · obtain ⟨hlog, hres⟩ := hf a a' hR
    exact ⟨congrArg (log ++ ·) hlog, hres⟩

end

end Traced

/-! ## Arrays -/

/-- An access to the element at `index` of an array allocated with `size` elements. -/
structure Access where
  index : ℕ
  size : ℕ
  deriving DecidableEq, Repr

def Access.InBounds (a : Access) : Prop := a.index < a.size

instance : DecidablePred Access.InBounds := fun a => inferInstanceAs (Decidable (a.index < a.size))

namespace Traced

variable {κ : Type}

def load (slots : List κ) (i : ℕ) : Traced Access κ :=
  ⟨[⟨i, slots.length⟩],
    match slots[i]? with
    | some v => .ok v
    | none => .error .undefined⟩

/-- A store past the end changes no element of the array. -/
def store (slots : List κ) (i : ℕ) (v : κ) : Traced Access (List κ) :=
  ⟨[⟨i, slots.length⟩], .ok (slots.set i v)⟩

/-- `for (i = 0; i < n; i++) slots[i] = v;` -/
def fill (v : κ) (slots : List κ) (n : ℕ) : Traced Access (List κ) :=
  runAll (fun slots i => store slots i v) slots (List.range n)

theorem load_result {slots : List κ} {i : ℕ} (hi : i < slots.length) :
    (load slots i).result = .ok slots[i] := by
  simp [load, hi]

theorem load_within {slots : List κ} {i : ℕ} (hi : i < slots.length) :
    (load slots i).Within Access.InBounds := by
  simpa [Within, load, Access.InBounds] using hi

@[simp] theorem store_result (slots : List κ) (i : ℕ) (v : κ) :
    (store slots i v).result = .ok (slots.set i v) := rfl

theorem store_within {slots : List κ} {i : ℕ} (hi : i < slots.length) (v : κ) :
    (store slots i v).Within Access.InBounds := by
  simpa [Within, store, Access.InBounds] using hi

theorem fill_result (v : κ) (slots : List κ) (n : ℕ) :
    (fill v slots n).result = .ok ((List.range n).foldl (fun slots i => slots.set i v) slots) := by
  rw [fill, runAll_result]
  induction List.range n generalizing slots with
  | nil => rfl
  | cons i l ih =>
    rw [Library.runAll, store_result, ok_bind, ih, List.foldl_cons]

theorem fill_log (v : κ) (slots : List κ) (n : ℕ) :
    (fill v slots n).log = (List.range n).map fun i => ⟨i, slots.length⟩ := by
  rw [fill]
  induction List.range n generalizing slots with
  | nil => rfl
  | cons i l ih =>
    rw [runAll, bind_log (store_result slots i v), ih, List.length_set]
    rfl

theorem fill_within {v : κ} {slots : List κ} {n : ℕ} (hn : n ≤ slots.length) :
    (fill v slots n).Within Access.InBounds := by
  intro a ha
  rw [fill_log] at ha
  obtain ⟨i, hi, rfl⟩ := List.mem_map.mp ha
  exact (List.mem_range.mp hi).trans_le hn

/-- `for (i = off; i < off + n; i++) if (!ok(slots[i])) return false;` and `true` after it. -/
def all (ok : κ → Bool) (slots : List κ) : ℕ → ℕ → Traced Access Bool
  | _, 0 => pure true
  | off, n + 1 => do
    let v ← load slots off
    if !ok v then pure false else all ok slots (off + 1) n

/-- The `n` elements from `off` on, one after the other. -/
def span (slots : List κ) : ℕ → ℕ → Traced Access (List κ)
  | _, 0 => pure []
  | off, n + 1 => do
    let v ← load slots off
    let vs ← span slots (off + 1) n
    pure (v :: vs)

section
variable {slots : List κ} {off n : ℕ}

theorem all_result (ok : κ → Bool) (h : off + n ≤ slots.length) :
    (all ok slots off n).result = .ok (((slots.drop off).take n).all ok) := by
  induction n generalizing off with
  | zero => rfl
  | succ n ih =>
    rw [List.drop_eq_getElem_cons (by omega), List.take_succ_cons, List.all_cons, all, bind_result,
      load_result (by omega), ok_bind]
    cases hv : ok slots[off] with
    | false => simp
    | true => simpa using ih (by omega)

theorem span_result (h : off + n ≤ slots.length) :
    (span slots off n).result = .ok ((slots.drop off).take n) := by
  induction n generalizing off with
  | zero => rfl
  | succ n ih =>
    rw [List.drop_eq_getElem_cons (by omega), List.take_succ_cons, span, bind_result,
      load_result (by omega), ok_bind, bind_result, ih (by omega)]
    rfl

/-- A loop over the elements from `off` on reads no others, even if it stops early. -/
theorem all_within (ok : κ → Bool) :
    (all ok slots off n).Within fun a => off ≤ a.index ∧ a.index < off + n := by
  induction n generalizing off with
  | zero => exact within_pure true
  | succ n ih =>
    refine Within.bind (by simp [Within, load]) fun v _ => ?_
    split
    · exact within_pure false
    · intro a ha
      have hrest := ih a ha
      omega

theorem span_within : (span slots off n).Within fun a => off ≤ a.index ∧ a.index < off + n := by
  induction n generalizing off with
  | zero => exact within_pure []
  | succ n ih =>
    refine Within.bind (by simp [Within, load]) fun v _ => Within.bind ?_ fun vs _ => within_pure _
    intro a ha
    have hrest := ih a ha
    omega

end

variable [DecidableEq κ]

/-- `probe`, with the slots it looks at: one that is not empty is looked at twice. -/
def probe (empty : κ) (slots : List κ) (mask : ℕ) (key : κ) : ℕ → ℕ → Traced Access (Bool × ℕ)
  | 0, _ => halt .diverges
  | fuel + 1, i => do
    let v ← load slots i
    if v = empty then pure (false, i)
    else
      let v ← load slots i
      if v = key then pure (true, i) else probe empty slots mask key fuel ((i + 1) &&& mask)

section
variable {empty key : κ} {slots : List κ} {mask : ℕ}

theorem probe_result (fuel i : ℕ) :
    (probe empty slots mask key fuel i).result = Library.probe empty slots mask key fuel i := by
  induction fuel generalizing i with
  | zero => rfl
  | succ fuel ih =>
    cases hv : slots[i]? with
    | none => simp [probe, Library.probe, load, hv]
    | some v =>
      by_cases he : v = empty
      · simp [probe, Library.probe, load, hv, he]
      · by_cases hk : v = key
        · subst hk
          simp [probe, Library.probe, load, hv, he]
        · simp [probe, Library.probe, load, hv, he, hk, ih]

theorem probe_within (hmask : mask < slots.length) (fuel : ℕ) {i : ℕ} (hi : i < slots.length) :
    (probe empty slots mask key fuel i).Within Access.InBounds := by
  induction fuel generalizing i with
  | zero => exact within_halt _
  | succ fuel ih =>
    refine (load_within hi).bind fun v _ => ?_
    by_cases he : v = empty
    · rw [if_pos he]
      exact within_pure _
    · rw [if_neg he]
      refine (load_within hi).bind fun v _ => ?_
      by_cases hk : v = key
      · rw [if_pos hk]
        exact within_pure _
      · rw [if_neg hk]
        exact ih (Nat.and_le_right.trans_lt hmask)

theorem probe_index {fuel i : ℕ} (hmask : mask < slots.length) (hi : i < slots.length) {found : Bool}
    {j : ℕ} (h : Library.probe empty slots mask key fuel i = .ok (found, j)) : j < slots.length := by
  induction fuel generalizing i with
  | zero => simp [Library.probe] at h
  | succ fuel ih =>
    rw [Library.probe, List.getElem?_eq_getElem hi] at h
    by_cases he : slots[i] = empty
    · simp only [if_pos he, Except.ok.injEq, Prod.mk.injEq] at h
      exact h.2 ▸ hi
    · by_cases hk : slots[i] = key
      · simp only [if_neg he, if_pos hk, Except.ok.injEq, Prod.mk.injEq] at h
        exact h.2 ▸ hi
      · simp only [if_neg he, if_neg hk] at h
        exact ih (Nat.and_le_right.trans_lt hmask) h

end

end Traced

end Caht.Library

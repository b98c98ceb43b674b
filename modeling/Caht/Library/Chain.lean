import Mathlib.Data.List.Basic
import Mathlib.Data.List.Nodup
import Mathlib.Data.List.GetD
import Mathlib.Tactic
import Caht.Library.Outcome

/-! # Intrusive singly linked lists

A memory is the list of the nodes allocated so far, a pointer is an index into
it and `none` is the null pointer. `IsChain` relates a head pointer to the list
of pointers met by following the link, and `findFrom` is the search loop every
user of such lists writes.
-/

namespace Caht.Library

variable {ν : Type} (next : ν → Option ℕ)

/-- The pointers visited from a head pointer, down to the null pointer. -/
def IsChain (mem : List ν) : Option ℕ → List ℕ → Prop
  | none, [] => True
  | some p, q :: l => p = q ∧ ∃ n, mem[p]? = some n ∧ IsChain mem (next n) l
  | _, _ => False

/-- `while (node != NULL) { if (test(node)) return node; node = node->next; }` -/
def findFrom (mem : List ν) (test : ν → Bool) : ℕ → Option ℕ → Outcome (Option ℕ)
  | _, none => .ok none
  | 0, some _ => .error .diverges
  | fuel + 1, some p =>
    match mem[p]? with
    | none => .error .undefined
    | some n => if test n then .ok (some p) else findFrom mem test fuel (next n)

/-- The same loop, keeping the node before the match for unlinking. -/
def findPrevFrom (mem : List ν) (test : ν → Bool) : ℕ → ℕ → Option ℕ → Outcome (Option (ℕ × ℕ))
  | _, _, none => .ok none
  | 0, _, some _ => .error .diverges
  | fuel + 1, prev, some p =>
    match mem[p]? with
    | none => .error .undefined
    | some n => if test n then .ok (some (prev, p)) else findPrevFrom mem test fuel p (next n)

/-- The test, asked of a pointer. -/
def testAt (mem : List ν) (test : ν → Bool) (p : ℕ) : Bool := (mem[p]?).any test

variable {next} {mem mem' : List ν} {head : Option ℕ} {l : List ℕ} {test : ν → Bool}

theorem testAt_eq_true {p : ℕ} : testAt mem test p = true ↔ ∃ n, mem[p]? = some n ∧ test n := by
  simp [testAt, Option.any_eq_true]

@[simp] theorem isChain_none : IsChain next mem none l ↔ l = [] := by
  cases l <;> simp [IsChain]

@[simp] theorem isChain_nil : IsChain next mem head [] ↔ head = none := by
  cases head <;> simp [IsChain]

theorem isChain_cons {q : ℕ} : IsChain next mem head (q :: l) ↔
    head = some q ∧ ∃ n, mem[q]? = some n ∧ IsChain next mem (next n) l := by
  cases head with
  | none => simp [IsChain]
  | some p =>
    simp only [IsChain, Option.some.injEq]
    constructor
    · rintro ⟨rfl, h⟩
      exact ⟨rfl, h⟩
    · rintro ⟨rfl, h⟩
      exact ⟨rfl, h⟩

theorem IsChain.lt (h : IsChain next mem head l) {p : ℕ} (hp : p ∈ l) : p < mem.length := by
  induction l generalizing head with
  | nil => simp at hp
  | cons q l ih =>
    obtain ⟨-, n, hn, hl⟩ := isChain_cons.mp h
    rcases List.mem_cons.mp hp with rfl | hp
    · exact (List.getElem?_eq_some_iff.mp hn).1
    · exact ih hl hp

theorem IsChain.length_le (h : IsChain next mem head l) (hd : l.Nodup) : l.length ≤ mem.length := by
  have hs : l ⊆ List.range mem.length := fun p hp => List.mem_range.mpr (h.lt hp)
  simpa using (hd.subperm hs).length_le

/-- Only the links of the visited nodes matter. -/
theorem IsChain.congr (h : IsChain next mem head l)
    (hm : ∀ p ∈ l, (mem'[p]?).map next = (mem[p]?).map next) : IsChain next mem' head l := by
  induction l generalizing head with
  | nil => simpa using h
  | cons q l ih =>
    obtain ⟨hq, n, hn, hl⟩ := isChain_cons.mp h
    have hq' := hm q (List.mem_cons_self)
    rw [hn, Option.map_some, Option.map_eq_some_iff] at hq'
    obtain ⟨n', hn', he⟩ := hq'
    refine isChain_cons.mpr ⟨hq, n', hn', ?_⟩
    rw [he]
    exact ih hl (fun p hp => hm p (List.mem_cons_of_mem _ hp))

theorem findFrom_eq (test : ν → Bool) (h : IsChain next mem head l) (fuel : ℕ) (hf : l.length ≤ fuel) :
    findFrom next mem test fuel head = .ok (l.find? (testAt mem test)) := by
  induction l generalizing head fuel with
  | nil =>
    obtain rfl := isChain_nil.mp h
    cases fuel <;> rfl
  | cons q l ih =>
    obtain ⟨rfl, n, hn, hl⟩ := isChain_cons.mp h
    obtain ⟨fuel, rfl⟩ : ∃ k, fuel = k + 1 := ⟨fuel - 1, by rw [List.length_cons] at hf; omega⟩
    rw [List.length_cons] at hf
    have ht : testAt mem test q = test n := by simp [testAt, hn]
    rw [findFrom, hn]
    cases hb : test n with
    | true => simp [ht, hb]
    | false => simpa [List.find?_cons, ht, hb] using ih hl fuel (by omega)

/-- The search with a trailing pointer stops at the first match, one node behind. -/
theorem findPrevFrom_eq (test : ν → Bool) (h : IsChain next mem head l) (fuel prev : ℕ)
    (hf : l.length ≤ fuel) :
    (findPrevFrom next mem test fuel prev head = .ok none ∧ ∀ p ∈ l, testAt mem test p = false) ∨
    ∃ l₁ p l₂, l = l₁ ++ p :: l₂ ∧ testAt mem test p = true ∧
      (∀ q ∈ l₁, testAt mem test q = false) ∧
      findPrevFrom next mem test fuel prev head =
        .ok (some ((prev :: l₁).getLast (List.cons_ne_nil _ _), p)) := by
  induction l generalizing head fuel prev with
  | nil =>
    obtain rfl := isChain_nil.mp h
    left
    constructor
    · cases fuel <;> rfl
    · simp
  | cons q l ih =>
    obtain ⟨rfl, n, hn, hl⟩ := isChain_cons.mp h
    obtain ⟨fuel, rfl⟩ : ∃ k, fuel = k + 1 := ⟨fuel - 1, by rw [List.length_cons] at hf; omega⟩
    rw [List.length_cons] at hf
    have ht : testAt mem test q = test n := by simp [testAt, hn]
    cases hb : test n with
    | true => exact .inr ⟨[], q, l, rfl, by rw [ht, hb], by simp, by simp [findPrevFrom, hn, hb]⟩
    | false =>
      rcases ih hl fuel q (by omega) with ⟨hnone, hall⟩ | ⟨l₁, p, l₂, rfl, hp, hl₁, he⟩
      · refine .inl ⟨by simpa [findPrevFrom, hn, hb] using hnone, ?_⟩
        intro p hp
        rcases List.mem_cons.mp hp with rfl | hp
        · rw [ht, hb]
        · exact hall p hp
      · refine .inr ⟨q :: l₁, p, l₂, rfl, hp, ?_, ?_⟩
        · intro r hr
          rcases List.mem_cons.mp hr with rfl | hr
          · rw [ht, hb]
          · exact hl₁ r hr
        · simpa [findPrevFrom, hn, hb] using he

/-- Redirecting the link of `q` past its successor takes exactly that node out. -/
theorem IsChain.unlink {l₁ l₂ : List ℕ} {q p : ℕ} (nq np : ν)
    (h : IsChain next mem head (l₁ ++ q :: p :: l₂)) (hd : (l₁ ++ q :: p :: l₂).Nodup)
    (hp : mem[p]? = some np) (hq : mem'[q]? = some nq) (hnext : next nq = next np)
    (hm : ∀ r, r ≠ q → (mem'[r]?).map next = (mem[r]?).map next) :
    IsChain next mem' head (l₁ ++ q :: l₂) := by
  induction l₁ generalizing head with
  | nil =>
    obtain ⟨rfl, n, hn, hl⟩ := isChain_cons.mp h
    obtain ⟨-, n', hn', hl'⟩ := isChain_cons.mp hl
    obtain rfl : np = n' := Option.some.inj (hp.symm.trans hn')
    refine isChain_cons.mpr ⟨rfl, nq, hq, ?_⟩
    rw [hnext]
    refine hl'.congr fun r hr => hm r ?_
    rintro rfl
    simp [hr] at hd
  | cons a l₁ ih =>
    obtain ⟨rfl, n, hn, hl⟩ := isChain_cons.mp h
    rw [List.cons_append, List.nodup_cons] at hd
    have ha := hm a (fun haq => hd.1 (by simp [haq]))
    rw [hn, Option.map_some, Option.map_eq_some_iff] at ha
    obtain ⟨n', hn', he⟩ := ha
    refine isChain_cons.mpr ⟨rfl, n', hn', ?_⟩
    rw [he]
    exact ih hl hd.2

/-! ## Buckets -/

theorem mem_flatten_of_getD {chains : List (List ℕ)} {i p : ℕ} (hp : p ∈ chains.getD i []) :
    p ∈ chains.flatten := by
  by_cases hi : i < chains.length
  · rw [List.getD_eq_getElem _ _ hi] at hp
    exact List.mem_flatten.mpr ⟨_, List.getElem_mem hi, hp⟩
  · simp [List.getD, List.getElem?_eq_none (Nat.le_of_not_lt hi)] at hp

theorem getD_set_eq {α : Type} (l : List α) (i j : ℕ) (a d : α) (hi : i < l.length) :
    (l.set i a).getD j d = if j = i then a else l.getD j d := by
  by_cases hj : j = i
  · subst hj
    simp [List.getD, hi]
  · simp [List.getD, hj, List.getElem?_set_ne (Ne.symm hj)]

/-- The chains of a bucket array after `p` was put in front of the `i`-th one. -/
def pushChain (chains : List (List ℕ)) (i p : ℕ) : List (List ℕ) :=
  chains.set i (p :: chains.getD i [])

/-- A node of no chain whose link is the old head of bucket `i` becomes its new
head; every other chain stays as it is. -/
theorem isChain_push {buckets : List (Option ℕ)} {chains : List (List ℕ)} {i p : ℕ} {n : ν}
    (hb : i < buckets.length) (hc : i < chains.length)
    (h : ∀ j < chains.length, IsChain next mem (buckets.getD j none) (chains.getD j []))
    (hn : mem'[p]? = some n) (hnext : next n = buckets.getD i none)
    (hm : ∀ q ∈ chains.flatten, (mem'[q]?).map next = (mem[q]?).map next) {j : ℕ}
    (hj : j < chains.length) :
    IsChain next mem' ((buckets.set i (some p)).getD j none) ((pushChain chains i p).getD j []) := by
  have hold := (h j hj).congr (fun q hq => hm q (mem_flatten_of_getD hq))
  rw [pushChain, getD_set_eq _ _ _ _ _ hb, getD_set_eq _ _ _ _ _ hc]
  by_cases he : j = i
  · subst he
    rw [if_pos rfl, if_pos rfl]
    exact isChain_cons.mpr ⟨rfl, n, hn, hnext ▸ hold⟩
  · rw [if_neg he, if_neg he]
    exact hold

theorem flatten_set_perm {α : Type} [DecidableEq α] (l : List (List α)) (i : ℕ) (hi : i < l.length)
    (b : List α) : ((l.set i b).flatten ++ l[i]).Perm (l.flatten ++ b) := by
  induction l generalizing i with
  | nil => simp at hi
  | cons a l ih =>
    cases i with
    | zero =>
      apply List.perm_iff_count.mpr
      intro x
      simp only [List.set_cons_zero, List.flatten_cons, List.getElem_cons_zero, List.count_append]
      omega
    | succ i =>
      simp only [List.set_cons_succ, List.flatten_cons, List.getElem_cons_succ, List.append_assoc]
      exact (ih i (by simpa using hi)).append_left a

theorem pushChain_perm (chains : List (List ℕ)) (i p : ℕ) (hi : i < chains.length) :
    (pushChain chains i p).flatten.Perm (p :: chains.flatten) := by
  have hx := flatten_set_perm chains i hi (p :: chains.getD i [])
  rw [List.getD_eq_getElem _ _ hi] at hx
  rw [pushChain, List.getD_eq_getElem _ _ hi]
  apply List.perm_iff_count.mpr
  intro x
  have hc := List.perm_iff_count.mp hx x
  simp only [List.count_append, List.count_cons] at hc ⊢
  omega

theorem unlinkChain_perm {chains : List (List ℕ)} {i p : ℕ} {c : List ℕ} (hi : i < chains.length)
    (hc : (p :: c).Perm (chains.getD i [])) : (p :: (chains.set i c).flatten).Perm chains.flatten := by
  have hx := flatten_set_perm chains i hi c
  rw [List.getD_eq_getElem _ _ hi] at hc
  apply List.perm_iff_count.mpr
  intro x
  have h1 := List.perm_iff_count.mp hx x
  have h2 := List.perm_iff_count.mp hc x
  simp only [List.count_append, List.count_cons] at h1 h2 ⊢
  omega

end Caht.Library

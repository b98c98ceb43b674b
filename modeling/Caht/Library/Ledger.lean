import Caht.Library.Chain
import Mathlib.Data.Finset.SDiff

/-! # What is allocated

The allocated blocks of memory are a finite set. To free a block that is not in it
has no meaning, and neither has a read of one, so a function that frees memory
returns only if it frees nothing twice and reads nothing it has freed.
-/

namespace Caht.Library

variable {α β ν : Type} [DecidableEq β]

/-- `free(b)` -/
def freeBlock (mem : Finset β) (b : β) : Outcome (Finset β) :=
  if b ∈ mem then .ok (mem.erase b) else .error .undefined

/-- A read of the block `b`. -/
def readBlock (mem : Finset β) (b : β) : Outcome Unit :=
  if b ∈ mem then .ok () else .error .undefined

/-- `while (node != NULL) { next = node->next; free(node); node = next; }` -/
def freeFrom (next : ν → Option ℕ) (nodes : List ν) (block : ℕ → β) :
    ℕ → Option ℕ → Finset β → Outcome (Finset β)
  | _, none, mem => .ok mem
  | 0, some _, _ => .error .diverges
  | fuel + 1, some p, mem =>
    match nodes[p]? with
    | none => .error .undefined
    | some n => do
      readBlock mem (block p)
      let mem ← freeBlock mem (block p)
      freeFrom next nodes block fuel (next n) mem

omit [DecidableEq β] in
theorem runAll_concat (f : β → α → Outcome β) (b : β) (as : List α) (a : α) :
    runAll f b (as ++ [a]) = runAll f b as >>= fun b => f b a := by
  rw [runAll_append]
  congr 1
  funext b
  cases h : f b a <;> simp [runAll, h]

variable {mem mem' : Finset β} {l : List β}

/-- Blocks are freed one after another exactly when they are allocated and distinct. -/
theorem runAll_free_iff : runAll freeBlock mem l = .ok mem' ↔
    l.Nodup ∧ (∀ b ∈ l, b ∈ mem) ∧ mem' = mem \ l.toFinset := by
  induction l generalizing mem with
  | nil => simp [runAll, eq_comm]
  | cons b l ih =>
    rw [runAll, bind_ok_iff]
    constructor
    · rintro ⟨mem₁, hfree, hrun⟩
      unfold freeBlock at hfree
      split_ifs at hfree with hb
      obtain rfl := Except.ok.inj hfree
      obtain ⟨hnd, hsub, rfl⟩ := ih.mp hrun
      have hoff : b ∉ l := fun hm => Finset.notMem_erase b mem (hsub b hm)
      refine ⟨List.nodup_cons.mpr ⟨hoff, hnd⟩, ?_, ?_⟩
      · intro c hc
        rcases List.mem_cons.mp hc with rfl | hc
        · exact hb
        · exact Finset.mem_of_mem_erase (hsub c hc)
      · ext c
        simp only [Finset.mem_sdiff, Finset.mem_erase, List.mem_toFinset, List.mem_cons]
        tauto
    · rintro ⟨hnd, hsub, rfl⟩
      obtain ⟨hoff, hnd⟩ := List.nodup_cons.mp hnd
      refine ⟨mem.erase b, if_pos (hsub b List.mem_cons_self), ih.mpr ⟨hnd, ?_, ?_⟩⟩
      · intro c hc
        have hne : c ≠ b := fun he => hoff (he ▸ hc)
        exact Finset.mem_erase.mpr ⟨hne, hsub c (List.mem_cons_of_mem _ hc)⟩
      · ext c
        simp only [Finset.mem_sdiff, Finset.mem_erase, List.mem_toFinset, List.mem_cons]
        tauto

theorem runAll_free_ok (hnd : l.Nodup) (hsub : l.toFinset ⊆ mem) :
    runAll freeBlock mem l = .ok (mem \ l.toFinset) :=
  runAll_free_iff.mpr ⟨hnd, fun _ hb => hsub (List.mem_toFinset.mpr hb), rfl⟩

theorem mem_of_runAll_free (h : runAll freeBlock mem l = .ok mem') {b : β} (hb : b ∈ mem)
    (hoff : b ∉ l) : b ∈ mem' := by
  obtain ⟨-, -, rfl⟩ := runAll_free_iff.mp h
  simp [hb, hoff]

/-- A loop that frees the blocks `g a` for each `a`, and reads a block it does not free
to find them. -/
theorem runAll_read_free {f : Finset β → α → Outcome (Finset β)} {g : α → List β} {array : β}
    {as : List α} (hf : ∀ mem, ∀ a ∈ as, f mem a = runAll freeBlock mem (g a))
    (hoff : ∀ a ∈ as, array ∉ g a) (hmem : array ∈ mem) :
    runAll (fun mem a => readBlock mem array >>= fun _ => f mem a) mem as =
      runAll freeBlock mem (as.flatMap g) := by
  induction as generalizing mem with
  | nil => rfl
  | cons a as ih =>
    have hread : readBlock mem array = .ok () := if_pos hmem
    have hone := hf mem a List.mem_cons_self
    rw [List.flatMap_cons, runAll_append]
    simp only [runAll, hread, ok_bind, hone]
    cases hrun : runAll freeBlock mem (g a) with
    | error e => rfl
    | ok mem₁ =>
      apply ih
      · exact fun mem b hb => hf mem b (List.mem_cons_of_mem _ hb)
      · exact fun b hb => hoff b (List.mem_cons_of_mem _ hb)
      · exact mem_of_runAll_free hrun hmem (hoff a List.mem_cons_self)

theorem runAll_read_each {array : β} {as : List α} {block : α → β}
    (hoff : ∀ a ∈ as, array ≠ block a) (hmem : array ∈ mem) :
    runAll (fun mem a => readBlock mem array >>= fun _ => freeBlock mem (block a)) mem as =
      runAll freeBlock mem (as.map block) := by
  rw [← List.flatMap_pure_eq_map]
  apply runAll_read_free
  · intro mem a _
    exact (runAll_concat freeBlock mem [] (block a)).symm
  · intro a ha
    simpa [pure] using hoff a ha
  · exact hmem

/-- The loop along a list frees its nodes in the order in which they are linked. -/
theorem freeFrom_eq {next : ν → Option ℕ} {nodes : List ν} {block : ℕ → β} {head : Option ℕ}
    {ps : List ℕ} (h : IsChain next nodes head ps) {fuel : ℕ} (hfuel : ps.length ≤ fuel)
    (mem : Finset β) :
    freeFrom next nodes block fuel head mem = runAll freeBlock mem (ps.map block) := by
  induction ps generalizing head fuel mem with
  | nil =>
    obtain rfl := isChain_nil.mp h
    cases fuel <;> rfl
  | cons p ps ih =>
    obtain ⟨rfl, n, hn, hrest⟩ := isChain_cons.mp h
    obtain ⟨fuel, rfl⟩ : ∃ k, fuel = k + 1 := ⟨fuel - 1, by rw [List.length_cons] at hfuel; omega⟩
    rw [List.length_cons] at hfuel
    rw [freeFrom, hn, List.map_cons, runAll]
    by_cases hp : block p ∈ mem
    · simp only [readBlock, freeBlock, if_pos hp, ok_bind]
      exact ih hrest (by omega) _
    · simp only [readBlock, freeBlock, if_neg hp, error_bind]

end Caht.Library

import Mathlib.Tactic
import Mathlib.Data.List.Basic
import Caht.Library.Outcome

/-! # Open addressing with linear probing

A table is a list of slots whose length is a power of two, with one value of the
key type reserved for empty slots. A key is searched from its home slot on,
cyclically, until it or an empty slot is met. `Probed` is the invariant that
makes the search exact: no empty slot lies between a key and its home.
-/

namespace Caht.Library

variable {κ : Type} [DecidableEq κ]

/-- `while (slots[i] != empty) { if (slots[i] == key) stop; i = (i + 1) & mask; }`,
with the slot it stops at and whether the key is there. -/
def probe (empty : κ) (slots : List κ) (mask : ℕ) (key : κ) : ℕ → ℕ → Outcome (Bool × ℕ)
  | 0, _ => .error .diverges
  | fuel + 1, i =>
    match slots[i]? with
    | none => .error .undefined
    | some v =>
      if v = empty then .ok (false, i)
      else if v = key then .ok (true, i)
      else probe empty slots mask key fuel ((i + 1) &&& mask)

/-- No empty slot among the first `d` slots from `start` on. -/
def Occupied (empty : κ) (slots : List κ) (start d : ℕ) : Prop :=
  ∀ e < d, slots[(start + e) % slots.length]? ≠ some empty

structure Probed (empty : κ) (home : κ → ℕ) (slots : List κ) : Prop where
  path : ∀ (key : κ) (j : ℕ), key ≠ empty → slots[j]? = some key →
    ∃ d < slots.length, (home key + d) % slots.length = j ∧ Occupied empty slots (home key) d
  uniq : ∀ (key : κ) (i j : ℕ), key ≠ empty → slots[i]? = some key → slots[j]? = some key → i = j

variable {empty : κ} {home : κ → ℕ} {slots : List κ} {key : κ}

omit [DecidableEq κ] in
theorem probed_replicate (n : ℕ) : Probed empty home (List.replicate n empty) where
  path key j hne hj := by
    have he := List.eq_of_mem_replicate (List.mem_of_getElem? hj)
    exact absurd he hne
  uniq key i j hne hi _ := by
    have he := List.eq_of_mem_replicate (List.mem_of_getElem? hi)
    exact absurd he hne

/-- The search reaches the first slot on its path that is empty or holds the key. -/
theorem probe_eq {k : ℕ} (hlen : slots.length = 2 ^ k) (start d fuel : ℕ) (hd : d < fuel)
    (hpath : ∀ e < d, slots[(start + e) % slots.length]? ≠ some empty ∧
      slots[(start + e) % slots.length]? ≠ some key)
    {v : κ} (hv : slots[(start + d) % slots.length]? = some v) (hstop : v = empty ∨ v = key) :
    probe empty slots (slots.length - 1) key fuel (start % slots.length) =
      .ok (decide (v ≠ empty), (start + d) % slots.length) := by
  have hpos : 0 < slots.length := hlen ▸ Nat.two_pow_pos k
  induction d generalizing start fuel with
  | zero =>
    obtain ⟨fuel, rfl⟩ : ∃ n, fuel = n + 1 := ⟨fuel - 1, by omega⟩
    rw [Nat.add_zero] at hv ⊢
    rw [probe, hv]
    by_cases he : v = empty
    · simp [he]
    · simp only [if_neg he, if_pos (hstop.resolve_left he)]
      simp [he]
  | succ d ih =>
    obtain ⟨fuel, rfl⟩ : ∃ n, fuel = n + 1 := ⟨fuel - 1, by omega⟩
    obtain ⟨w, hw⟩ : ∃ w, slots[start % slots.length]? = some w :=
      ⟨_, List.getElem?_eq_getElem (Nat.mod_lt _ hpos)⟩
    obtain ⟨hne, hnk⟩ := hpath 0 (by omega)
    rw [Nat.add_zero, hw] at hne hnk
    have hnext : (start % slots.length + 1) &&& (slots.length - 1) = (start + 1) % slots.length := by
      rw [hlen, Nat.and_two_pow_sub_one_eq_mod, Nat.mod_add_mod]
    have hshift : ∀ e, start + 1 + e = start + (e + 1) := fun e => by omega
    rw [probe, hw]
    simp only [if_neg (fun h : w = empty => hne (h ▸ rfl)),
      if_neg (fun h : w = key => hnk (h ▸ rfl)), hnext]
    rw [ih (start + 1) fuel (by omega) (fun e he => by
      rw [hshift]
      exact hpath (e + 1) (by omega)) (by rw [hshift]; exact hv), hshift]

/-- With an empty slot somewhere, the search for any key stops within one turn. -/
theorem exists_stop (hmem : empty ∈ slots) (start : ℕ) (key : κ) :
    ∃ d < slots.length, ∃ v, slots[(start + d) % slots.length]? = some v ∧ (v = empty ∨ v = key) ∧
      ∀ e < d, slots[(start + e) % slots.length]? ≠ some empty ∧
        slots[(start + e) % slots.length]? ≠ some key := by
  classical
  obtain ⟨j, hj, hje⟩ := List.getElem_of_mem hmem
  have hpos : 0 < slots.length := by omega
  have hex : ∃ d, d < slots.length ∧ ∃ v, slots[(start + d) % slots.length]? = some v ∧
      (v = empty ∨ v = key) := by
    -- the distance from `start` to the empty slot, going round if need be
    refine ⟨(j + slots.length - start % slots.length) % slots.length, Nat.mod_lt _ hpos, empty, ?_,
      .inl rfl⟩
    have hs := Nat.mod_lt start hpos
    have hidx : (start + (j + slots.length - start % slots.length) % slots.length) % slots.length =
        j := by
      rw [Nat.add_mod_mod, ← Nat.mod_add_mod]
      have he : start % slots.length + (j + slots.length - start % slots.length) =
          j + slots.length := by omega
      rw [he, Nat.add_mod_right, Nat.mod_eq_of_lt hj]
    rw [hidx, List.getElem?_eq_getElem hj, hje]
  obtain ⟨hd, v, hv, hstop⟩ := Nat.find_spec hex
  refine ⟨Nat.find hex, hd, v, hv, hstop, fun e he => ?_⟩
  have hmin := Nat.find_min hex he
  constructor
  · intro h
    exact hmin ⟨by omega, empty, h, .inl rfl⟩
  · intro h
    exact hmin ⟨by omega, key, h, .inr rfl⟩

/-- What the search finds: the slot of the key, or the empty slot it belongs in. -/
theorem Probed.search (h : Probed empty home slots) {k : ℕ} (hlen : slots.length = 2 ^ k)
    (hmem : empty ∈ slots) (key : κ) :
    ∃ d < slots.length, ∃ v, slots[(home key + d) % slots.length]? = some v ∧
      probe empty slots (slots.length - 1) key slots.length (home key % slots.length) =
        .ok (decide (v ≠ empty), (home key + d) % slots.length) ∧
      Occupied empty slots (home key) d ∧
      ((v = empty ∧ (key ≠ empty → key ∉ slots)) ∨ (v ≠ empty ∧ v = key)) := by
  obtain ⟨d, hd, v, hv, hstop, hpath⟩ := exists_stop hmem (home key) key
  refine ⟨d, hd, v, hv, probe_eq hlen _ _ _ hd hpath hv hstop, fun e he => (hpath e he).1, ?_⟩
  by_cases he : v = empty
  · refine .inl ⟨he, fun hne hkey => ?_⟩
    obtain ⟨j, hj, hje⟩ := List.getElem_of_mem hkey
    obtain ⟨d', hd', hidx, hocc⟩ := h.path key j hne (by rw [List.getElem?_eq_getElem hj, hje])
    -- the key's own path would have to pass the empty slot, or end before it
    rcases lt_trichotomy d' d with hlt | rfl | hgt
    · apply (hpath d' hlt).2
      rw [hidx, List.getElem?_eq_getElem hj, hje]
    · rw [hidx, List.getElem?_eq_getElem hj, hje, he] at hv
      exact hne (Option.some.inj hv)
    · exact hocc d hgt (by rw [hv, he])
  · exact .inr ⟨he, hstop.resolve_left he⟩

omit [DecidableEq κ] in
theorem Probed.set (h : Probed empty home slots) {d : ℕ} (hd : d < slots.length)
    (hocc : Occupied empty slots (home key) d) (hne : key ≠ empty) (hnew : key ∉ slots) :
    Probed empty home (slots.set ((home key + d) % slots.length) key) := by
  have hlt : (home key + d) % slots.length < slots.length := Nat.mod_lt _ (by omega)
  have hget : ∀ j, (slots.set ((home key + d) % slots.length) key)[j]? =
      if j = (home key + d) % slots.length then some key else slots[j]? := by
    intro j
    by_cases hj : j = (home key + d) % slots.length
    · rw [if_pos hj, hj, List.getElem?_set_self hlt]
    · rw [if_neg hj, List.getElem?_set_ne (Ne.symm hj)]
  have hkeep : ∀ s n, Occupied empty slots s n →
      Occupied empty (slots.set ((home key + d) % slots.length) key) s n := by
    intro s n ho e he
    rw [List.length_set, hget]
    split_ifs
    · exact fun hc => hne (Option.some.inj hc)
    · exact ho e he
  refine ⟨fun key' j hne' hj => ?_, fun key' i j hne' hi hj => ?_⟩
  · rw [hget] at hj
    rw [List.length_set]
    split_ifs at hj with hc
    · obtain rfl := Option.some.inj hj
      exact ⟨d, hd, hc.symm, hkeep _ _ hocc⟩
    · obtain ⟨d', hd', hidx, ho⟩ := h.path key' j hne' hj
      exact ⟨d', hd', hidx, hkeep _ _ ho⟩
  · rw [hget] at hi hj
    split_ifs at hi hj with hci hcj hcj
    · rw [hci, hcj]
    · obtain rfl := Option.some.inj hi
      exact absurd (List.mem_of_getElem? hj) hnew
    · obtain rfl := Option.some.inj hj
      exact absurd (List.mem_of_getElem? hi) hnew
    · exact h.uniq key' i j hne' hi hj

/-- The keys stored, in slot order. -/
def stored (empty : κ) (slots : List κ) : List κ := slots.filter (fun v => v ≠ empty)

@[simp] theorem stored_cons_empty (l : List κ) : stored empty (empty :: l) = stored empty l := by
  simp [stored]

theorem stored_cons_of_ne {v : κ} (h : v ≠ empty) (l : List κ) :
    stored empty (v :: l) = v :: stored empty l := by
  simp [stored, h]

theorem mem_stored {v : κ} : v ∈ stored empty slots ↔ v ∈ slots ∧ v ≠ empty := by
  simp [stored]

theorem stored_set {i : ℕ} (hi : slots[i]? = some empty) (hne : key ≠ empty) :
    (stored empty (slots.set i key)).Perm (key :: stored empty slots) := by
  induction slots generalizing i with
  | nil => simp at hi
  | cons a l ih =>
    cases i with
    | zero =>
      obtain rfl : a = empty := by simpa using hi
      simp [stored, hne]
    | succ i =>
      have hp := ih (i := i) (by simpa using hi)
      by_cases ha : a = empty
      · subst ha
        simpa using hp
      · rw [List.set_cons_succ, stored_cons_of_ne ha, stored_cons_of_ne ha]
        exact (hp.cons a).trans (List.Perm.swap key a _)

theorem Probed.stored_nodup (h : Probed empty home slots) : (stored empty slots).Nodup := by
  refine List.pairwise_filter.mpr (List.pairwise_iff_getElem.mpr ?_)
  intro i j hi hj hij hne _ he
  have hie : slots[i]? = some slots[i] := List.getElem?_eq_getElem hi
  have hje : slots[j]? = some slots[i] := by rw [List.getElem?_eq_getElem hj, he]
  have huniq := h.uniq slots[i] i j (by simpa using hne) hie hje
  omega

theorem empty_mem_of_stored_lt (h : (stored empty slots).length < slots.length) : empty ∈ slots := by
  by_contra hno
  have hall : stored empty slots = slots := by
    apply List.filter_eq_self.mpr
    intro v hv
    have hne : v ≠ empty := fun he => hno (he ▸ hv)
    simpa using hne
  rw [hall] at h
  exact lt_irrefl _ h

end Caht.Library

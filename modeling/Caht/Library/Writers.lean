import Mathlib.Data.List.Flatten
import Mathlib.Data.List.Nodup
import Mathlib.Logic.Function.Basic

/-! # Writers on one stream

Several messages are written to one stream, each a part at a time. As long as no
message is continued or begun while another one is under way, the stream consists of
whole messages and the beginning of one more.
-/

namespace Caht.Library

variable {ι α : Type} {msg msg' : ι → List α} {sent : ι → ℕ} {stream : List α}

/-- A part of the message has been written, and a part has not. -/
def Underway (msg : ι → List α) (sent : ι → ℕ) (i : ι) : Prop :=
  0 < sent i ∧ sent i < (msg i).length

/-- The messages in `done` one after the other, and what was written of the one that
is under way. `sent i` is how much was written of message `i`. -/
def Framed (msg : ι → List α) (sent : ι → ℕ) (stream : List α) : Prop :=
  ∃ done : List ι, done.Nodup ∧ (∀ i, i ∈ done ↔ 0 < sent i ∧ sent i = (msg i).length) ∧
    ((∀ i, ¬ Underway msg sent i) ∧ stream = done.flatMap msg ∨
      ∃ p, Underway msg sent p ∧ (∀ i, Underway msg sent i → i = p) ∧
        stream = done.flatMap msg ++ (msg p).take (sent p))

theorem Framed.nil (msg : ι → List α) : Framed msg (fun _ => 0) [] :=
  ⟨[], List.nodup_nil, by simp, .inl ⟨fun i h => absurd h.1 (Nat.lt_irrefl 0), rfl⟩⟩

theorem Framed.congr (h : Framed msg sent stream) (hm : ∀ i, 0 < sent i → msg' i = msg i) :
    Framed msg' sent stream := by
  obtain ⟨done, hnd, hdone, hrest⟩ := h
  have hflat : done.flatMap msg' = done.flatMap msg :=
    List.flatMap_congr fun i hi => hm i ((hdone i).mp hi).1
  have hway : ∀ i, Underway msg' sent i ↔ Underway msg sent i := by
    intro i
    refine and_congr_right fun hpos => ?_
    rw [hm i hpos]
  refine ⟨done, hnd, ?_, ?_⟩
  · intro i
    rw [hdone i]
    refine and_congr_right fun hpos => ?_
    rw [hm i hpos]
  · rw [hflat]
    refine hrest.imp (fun ⟨hno, hs⟩ => ⟨fun i hi => hno i ((hway i).mp hi), hs⟩) ?_
    rintro ⟨p, hp, honly, hs⟩
    exact ⟨p, (hway p).mpr hp, fun i hi => honly i ((hway i).mp hi), by rw [hm p hp.1, hs]⟩

/-- The next `n` elements of message `i`, while no other message is under way. -/
theorem Framed.write [DecidableEq ι] (h : Framed msg sent stream) (i : ι) (n : ℕ)
    (hroom : sent i + n ≤ (msg i).length) (halone : 0 < n → ∀ j, j ≠ i → ¬ Underway msg sent j) :
    Framed msg (Function.update sent i (sent i + n)) (stream ++ ((msg i).drop (sent i)).take n) := by
  obtain rfl | hn := n.eq_zero_or_pos
  · rwa [Nat.add_zero, Function.update_eq_self, List.take_zero, List.append_nil]
  obtain ⟨done, hnd, hdone, hrest⟩ := h
  have hout : i ∉ done := fun hi => by
    have hfull := ((hdone i).mp hi).2
    omega
  have hstream : stream = done.flatMap msg ++ (msg i).take (sent i) := by
    rcases hrest with ⟨hno, hs⟩ | ⟨p, hp, -, hs⟩
    · have hzero : sent i = 0 := by
        by_contra hne
        exact hno i ⟨Nat.pos_of_ne_zero hne, by omega⟩
      rw [hs, hzero, List.take_zero, List.append_nil]
    · have hpi : p = i := by
        by_contra hne
        exact halone hn p hne hp
      rw [hs, hpi]
  have hnew : stream ++ ((msg i).drop (sent i)).take n = done.flatMap msg ++ (msg i).take (sent i + n) := by
    rw [hstream, List.append_assoc, List.take_add]
  have hother : ∀ j, j ≠ i → ¬ Underway msg (Function.update sent i (sent i + n)) j := by
    intro j hj hway
    rw [Underway, Function.update_of_ne hj] at hway
    exact halone hn j hj hway
  by_cases hfull : sent i + n = (msg i).length
  · refine ⟨done ++ [i], ?_, ?_, .inl ⟨?_, ?_⟩⟩
    · exact List.nodup_append.mpr ⟨hnd, List.nodup_singleton i, by
        rintro a ha b hb rfl
        exact hout (List.mem_singleton.mp hb ▸ ha)⟩
    · intro j
      by_cases hj : j = i
      · subst hj
        simp only [List.mem_append, List.mem_singleton, or_true, Function.update_self, true_iff]
        exact ⟨by omega, hfull⟩
      · rw [List.mem_append, List.mem_singleton, Function.update_of_ne hj, or_iff_left hj, hdone j]
    · intro j hway
      by_cases hj : j = i
      · subst hj
        rw [Underway, Function.update_self] at hway
        omega
      · exact hother j hj hway
    · rw [hnew, hfull, List.take_length, List.flatMap_append, List.flatMap_singleton]
  · refine ⟨done, hnd, ?_, .inr ⟨i, ?_, ?_, ?_⟩⟩
    · intro j
      by_cases hj : j = i
      · subst hj
        rw [Function.update_self]
        exact iff_of_false hout fun hf => hfull hf.2
      · rw [Function.update_of_ne hj, hdone j]
    · rw [Underway, Function.update_self]
      omega
    · intro j hway
      by_contra hj
      exact hother j hj hway
    · rw [hnew, Function.update_self]

/-- The stream is the beginning of a sequence of different messages. -/
theorem Framed.isPrefix (h : Framed msg sent stream) :
    ∃ is : List ι, is.Nodup ∧ (∀ i ∈ is, 0 < sent i) ∧ stream <+: is.flatMap msg := by
  obtain ⟨done, hnd, hdone, ⟨-, hs⟩ | ⟨p, hp, -, hs⟩⟩ := h
  · exact ⟨done, hnd, fun i hi => ((hdone i).mp hi).1, hs ▸ List.prefix_rfl⟩
  · refine ⟨done ++ [p], ?_, ?_, ?_⟩
    · refine List.nodup_append.mpr ⟨hnd, List.nodup_singleton p, ?_⟩
      rintro a ha b hb rfl
      obtain rfl := List.mem_singleton.mp hb
      exact absurd ((hdone a).mp ha).2 (Nat.ne_of_lt hp.2)
    · intro i hi
      rcases List.mem_append.mp hi with hi | hi
      · exact ((hdone i).mp hi).1
      · exact List.mem_singleton.mp hi ▸ hp.1
    · rw [hs, List.flatMap_append, List.flatMap_singleton]
      exact (List.prefix_append_right_inj _).mpr (List.take_prefix _ _)

end Caht.Library

import Caht.Protocol.Wire

/-! # Slabs of buffers

`slab.c`: a stack of released buffers of one capacity. All the `BufRef` blocks
`malloc` has returned, whichever slab asked for them, are one list `heap`, and a
pointer to a block is its index. The used part of the array `buf_refs` is a list,
so `len` is its length. Memory that `malloc` returns holds any bytes (`junk`),
and a failed allocation ends the process.
-/

namespace Caht
open Library Protocol

structure BufRef where
  ref : ℕ
  buf : List UInt8
  deriving DecidableEq, Repr

structure Slab where
  cap : ℕ
  bufCap : ℕ
  bufRefs : List ℕ
  deriving DecidableEq, Repr

def slabInitLen : ℕ := 64

/-- A new block of a slab. Its count is stored when it is acquired, and 0 until then. -/
def mallocBufRef (s : Slab) (junk : ℕ → UInt8) : BufRef := ⟨0, (List.range s.bufCap).map junk⟩

/-- The first `slab_cap` buffers are allocated at once; `junk i` is what is found
in the `i`-th block of the heap. -/
def slabInitCap (heap : List BufRef) (bufCap slabCap : ℕ) (junk : ℕ → ℕ → UInt8) :
    List BufRef × Slab :=
  let s : Slab := ⟨slabCap, bufCap, (List.range slabCap).map (heap.length + ·)⟩
  (heap ++ (List.range slabCap).map fun i => mallocBufRef s (junk (heap.length + i)), s)

def slabInit (heap : List BufRef) (bufCap : ℕ) (junk : ℕ → ℕ → UInt8) : List BufRef × Slab :=
  slabInitCap heap bufCap slabInitLen junk

def setRef (heap : List BufRef) (bref ref : ℕ) : List BufRef :=
  heap.modify bref fun b => { b with ref := ref }

def slabAcquire (heap : List BufRef) (s : Slab) (ref : ℕ) (junk : ℕ → ℕ → UInt8) :
    List BufRef × Slab × ℕ :=
  match s.bufRefs.getLast? with
  | some bref => (setRef heap bref ref, { s with bufRefs := s.bufRefs.dropLast }, bref)
  | none =>
    (setRef (heap ++ [mallocBufRef s (junk heap.length)]) heap.length ref, s, heap.length)

def slabBufCap (s : Slab) : ℕ := s.bufCap

/-- The count is a `size_t`, so releasing a buffer whose count is zero wraps it. -/
def slabRelease (heap : List BufRef) (s : Slab) (bref : ℕ) : Outcome (List BufRef × Slab) :=
  match heap[bref]? with
  | none => .error .undefined
  | some b =>
    let ref := sizeSub b.ref 1
    let heap := setRef heap bref ref
    if ref ≠ 0 then .ok (heap, s) else
      .ok (heap, { s with
        cap := if s.cap = s.bufRefs.length then s.cap * 2 else s.cap
        bufRefs := s.bufRefs ++ [bref] })

/-! ## What the two calls do -/

/-- The released buffers of a slab are distinct blocks of its capacity, counted zero. -/
structure Slab.Wf (s : Slab) (heap : List BufRef) : Prop where
  nodup : s.bufRefs.Nodup
  sized : ∀ b ∈ s.bufRefs, ∃ r, heap[b]? = some r ∧ r.buf.length = s.bufCap
  len_le : s.bufRefs.length ≤ s.cap
  cap_pos : 0 < s.cap
  zero : ∀ b ∈ s.bufRefs, ∀ r, heap[b]? = some r → r.ref = 0

theorem setRef_getElem? (heap : List BufRef) (b ref q : ℕ) :
    (setRef heap b ref)[q]? =
      if q = b then (heap[q]?).map fun r => { r with ref := ref } else heap[q]? := by
  rw [setRef, List.getElem?_modify]
  by_cases h : q = b
  · simp [h]
  · simp [h, Ne.symm h]

theorem setRef_length (heap : List BufRef) (b ref : ℕ) : (setRef heap b ref).length = heap.length := by
  simp [setRef]

/-- `heap'` has all the blocks of `heap`, and only block `b` may differ. -/
def SameBut (heap heap' : List BufRef) (b : ℕ) : Prop :=
  ∀ q, q < heap.length → q ≠ b → heap'[q]? = heap[q]?

theorem Slab.Wf.congr {s s' : Slab} {heap heap' : List BufRef} {b : ℕ} (h : s.Wf heap)
    (hsame : SameBut heap heap' b) (hsub : s'.bufRefs.Sublist s.bufRefs) (hb : b ∉ s'.bufRefs)
    (hbuf : s'.bufCap = s.bufCap) (hcap : s'.cap = s.cap) : s'.Wf heap' := by
  have hkeep : ∀ q ∈ s'.bufRefs, heap'[q]? = heap[q]? := by
    intro q hq
    obtain ⟨r, hr, -⟩ := h.sized q (hsub.subset hq)
    exact hsame q (List.getElem?_eq_some_iff.mp hr).1 fun he => hb (he ▸ hq)
  refine ⟨hsub.nodup h.nodup, ?_, hcap ▸ hsub.length_le.trans h.len_le, hcap ▸ h.cap_pos, ?_⟩
  · intro q hq
    obtain ⟨r, hr, hlen⟩ := h.sized q (hsub.subset hq)
    exact ⟨r, (hkeep q hq).trans hr, hlen.trans hbuf.symm⟩
  · intro q hq r hr
    exact h.zero q (hsub.subset hq) r ((hkeep q hq).symm.trans hr)

/-- What `slab_acquire` leaves behind: the buffer it returns was on the stack or
is a new block, it is off the stack now and has the requested count. -/
structure Slab.Acquired (s : Slab) (heap : List BufRef) (ref : ℕ) (heap' : List BufRef) (s' : Slab)
    (b : ℕ) (buf : List UInt8) : Prop where
  wf : s'.Wf heap'
  bufCap : s'.bufCap = s.bufCap
  block : heap'[b]? = some ⟨ref, buf⟩
  length : buf.length = s.bufCap
  off : b ∉ s'.bufRefs
  sub : ∀ q ∈ s'.bufRefs, q ∈ s.bufRefs
  keep : ∀ q ∈ s.bufRefs, q = b ∨ q ∈ s'.bufRefs
  grown : ∀ q < heap'.length, q = b ∨ q < heap.length
  source : b ∈ s.bufRefs ∨ b = heap.length
  same : SameBut heap heap' b

theorem Slab.Wf.acquire {s : Slab} {heap : List BufRef} (h : s.Wf heap) (ref : ℕ)
    (junk : ℕ → ℕ → UInt8) :
    ∃ heap' s' b buf, slabAcquire heap s ref junk = (heap', s', b) ∧
      s.Acquired heap ref heap' s' b buf := by
  rcases List.eq_nil_or_concat s.bufRefs with hnil | ⟨rest, b, hrest⟩
  · have hlast : s.bufRefs.getLast? = none := by rw [hnil]; rfl
    have hsame : SameBut heap (setRef (heap ++ [mallocBufRef s (junk heap.length)]) heap.length ref)
        heap.length := by
      intro q hq hne
      rw [setRef_getElem?, if_neg hne, List.getElem?_append_left hq]
    refine ⟨_, s, heap.length, (mallocBufRef s (junk heap.length)).buf, by simp [slabAcquire, hlast],
      ?_, rfl, ?_, by simp [mallocBufRef], by simp [hnil], fun q hq => hq, fun q hq => .inr hq, ?_,
      .inr rfl, hsame⟩
    · exact h.congr hsame (List.Sublist.refl _) (by simp [hnil]) rfl rfl
    · rw [setRef_getElem?, if_pos rfl, List.getElem?_append_right le_rfl]
      simp
    · intro q hq
      rw [setRef_length, List.length_append, List.length_singleton] at hq
      omega
  · have hlast : s.bufRefs.getLast? = some b := by rw [hrest]; simp
    have hdrop : s.bufRefs.dropLast = rest := by rw [hrest]; simp
    have hb : b ∈ s.bufRefs := by rw [hrest]; simp
    have hoff : b ∉ rest := by
      have hn := h.nodup
      rw [hrest, List.concat_eq_append, List.nodup_append] at hn
      exact fun hm => hn.2.2 b hm b (by simp) rfl
    obtain ⟨r, hr, hlen⟩ := h.sized b hb
    have hsame : SameBut heap (setRef heap b ref) b := by
      intro q _ hne
      rw [setRef_getElem?, if_neg hne]
    have hsub : rest.Sublist s.bufRefs := by
      rw [hrest, List.concat_eq_append]
      exact List.sublist_append_left _ _
    refine ⟨setRef heap b ref, { s with bufRefs := rest }, b, r.buf, by simp [slabAcquire, hlast, hdrop],
      ?_, rfl, ?_, hlen, hoff, fun q hq => hsub.subset hq, ?_, ?_, .inl hb, hsame⟩
    · exact h.congr hsame hsub hoff rfl rfl
    · rw [setRef_getElem?, if_pos rfl, hr]
      rfl
    · intro q hq
      rw [hrest, List.concat_eq_append, List.mem_append, List.mem_singleton] at hq
      exact hq.symm
    · intro q hq
      rw [setRef_length] at hq
      exact .inr hq

/-- The last release of a buffer puts it on the stack. -/
theorem Slab.Wf.release {s : Slab} {heap : List BufRef} (h : s.Wf heap) {b : ℕ} {buf : List UInt8}
    (hb : heap[b]? = some ⟨1, buf⟩) (hlen : buf.length = s.bufCap) (hoff : b ∉ s.bufRefs) :
    ∃ heap' s', slabRelease heap s b = .ok (heap', s') ∧ s'.Wf heap' ∧ s'.bufCap = s.bufCap ∧
      s'.bufRefs = s.bufRefs ++ [b] ∧ SameBut heap heap' b ∧ heap'.length = heap.length := by
  have hsame : SameBut heap (setRef heap b 0) b := by
    intro q _ hne
    rw [setRef_getElem?, if_neg hne]
  refine ⟨setRef heap b 0, { s with
      cap := if s.cap = s.bufRefs.length then s.cap * 2 else s.cap
      bufRefs := s.bufRefs ++ [b] }, by simp [slabRelease, hb, sizeSub], ?_, rfl, rfl, hsame,
      setRef_length _ _ _⟩
  have hle := h.len_le
  have hpos := h.cap_pos
  have hblock : (setRef heap b 0)[b]? = some ⟨0, buf⟩ := by
    rw [setRef_getElem?, if_pos rfl, hb]
    rfl
  refine ⟨?_, ?_, ?_, ?_, ?_⟩
  · exact (List.perm_append_singleton b s.bufRefs).nodup_iff.mpr (List.nodup_cons.mpr ⟨hoff, h.nodup⟩)
  · intro q hq
    rcases List.mem_append.mp hq with hq | hq
    · obtain ⟨r, hr, hl⟩ := h.sized q hq
      have hlt := (List.getElem?_eq_some_iff.mp hr).1
      exact ⟨r, by rw [hsame q hlt (fun he => hoff (he ▸ hq)), hr], hl⟩
    · obtain rfl := List.mem_singleton.mp hq
      exact ⟨⟨0, buf⟩, hblock, hlen⟩
  · simp only [List.length_append, List.length_singleton]
    split <;> omega
  · simp only
    split <;> omega
  · intro q hq r hr
    rcases List.mem_append.mp hq with hq | hq
    · obtain ⟨r', hr', -⟩ := h.sized q hq
      rw [hsame q (List.getElem?_eq_some_iff.mp hr').1 (fun he => hoff (he ▸ hq))] at hr
      exact h.zero q hq r hr
    · obtain rfl := List.mem_singleton.mp hq
      obtain rfl := Option.some.inj (hblock.symm.trans hr)
      rfl

end Caht

import Caht.Server.Slab

/-! # Reference counts of a slab

Any number of buffers of one slab, acquired with any counts and released in any
order. `owed` is kept from the calls alone: the count asked for when a buffer was
acquired last, less the releases since. A buffer is live while some are owed.
-/

namespace Caht
open Library Protocol

inductive SlabCall where
  | acquire (ref : ℕ) (junk : ℕ → ℕ → UInt8)
  | release (bref : ℕ)

structure SlabUse where
  heap : List BufRef
  slab : Slab
  owed : ℕ → ℕ
  peak : ℕ

namespace SlabUse

def init (heap : List BufRef) (bufCap slabCap : ℕ) (junk : ℕ → ℕ → UInt8) : SlabUse :=
  let (heap, slab) := slabInitCap heap bufCap slabCap junk
  ⟨heap, slab, fun _ => 0, 0⟩

def live (u : SlabUse) : Finset ℕ := (Finset.range u.heap.length).filter fun b => u.owed b ≠ 0

def call (u : SlabUse) : SlabCall → Outcome SlabUse
  | .acquire ref junk =>
    let (heap, slab, bref) := slabAcquire u.heap u.slab ref junk
    let u' : SlabUse := ⟨heap, slab, Function.update u.owed bref ref, u.peak⟩
    .ok { u' with peak := max u.peak u'.live.card }
  | .release bref => do
    let (heap, slab) ← slabRelease u.heap u.slab bref
    .ok { u with heap := heap, slab := slab, owed := Function.update u.owed bref (u.owed bref - 1) }

/-- A count is a positive `size_t`, and only what is owed is released. -/
def Allowed (u : SlabUse) : SlabCall → Prop
  | .acquire ref _ => 1 ≤ ref ∧ ref < 2 ^ 64
  | .release bref => u.owed bref ≠ 0

def AllowedRun (u : SlabUse) : List SlabCall → Prop
  | [] => True
  | c :: calls => u.Allowed c ∧ ∀ u', u.call c = .ok u' → AllowedRun u' calls

instance (u : SlabUse) (c : SlabCall) : Decidable (u.Allowed c) :=
  match c with
  | .acquire ref _ => inferInstanceAs (Decidable (1 ≤ ref ∧ ref < 2 ^ 64))
  | .release bref => inferInstanceAs (Decidable (u.owed bref ≠ 0))

instance decidableAllowedRun (u : SlabUse) : (calls : List SlabCall) → Decidable (u.AllowedRun calls)
  | [] => .isTrue trivial
  | c :: calls =>
    match h : u.call c with
    | .ok u' =>
      have := decidableAllowedRun u' calls
      decidable_of_iff (u.Allowed c ∧ u'.AllowedRun calls) (by simp [AllowedRun, h])
    | .error _ => decidable_of_iff (u.Allowed c) (by simp [AllowedRun, h])

/-- Blocks from `base` on are the slab's. What is not on the stack is live, with
its count in its header. -/
structure Inv (base slabCap : ℕ) (u : SlabUse) : Prop where
  wf : u.slab.Wf u.heap
  stack : ∀ b, b ∈ u.slab.bufRefs ↔ (base ≤ b ∧ b < u.heap.length) ∧ u.owed b = 0
  owed : ∀ b, u.owed b ≠ 0 → base ≤ b ∧ ∃ buf, u.heap[b]? = some ⟨u.owed b, buf⟩ ∧
    buf.length = u.slab.bufCap ∧ u.owed b < 2 ^ 64
  allocated : u.heap.length = base + max slabCap u.peak

theorem init_inv (heap : List BufRef) (bufCap : ℕ) {slabCap : ℕ} (hcap : 1 ≤ slabCap)
    (junk : ℕ → ℕ → UInt8) : Inv heap.length slabCap (init heap bufCap slabCap junk) := by
  constructor
  case wf =>
    have hblock : ∀ b ∈ (init heap bufCap slabCap junk).slab.bufRefs, ∃ i,
        (init heap bufCap slabCap junk).heap[b]? =
          some (mallocBufRef ⟨slabCap, bufCap, (List.range slabCap).map (heap.length + ·)⟩
            (junk (heap.length + i))) := by
      intro b hb
      obtain ⟨i, hi, rfl⟩ := List.mem_map.mp hb
      rw [List.mem_range] at hi
      exact ⟨i, by simp [init, slabInitCap, hi]⟩
    refine ⟨?_, ?_, by simp [init, slabInitCap], hcap, ?_⟩
    · refine List.Nodup.map ?_ List.nodup_range
      exact fun a b h => Nat.add_left_cancel h
    · intro b hb
      obtain ⟨i, hi⟩ := hblock b hb
      exact ⟨_, hi, by simp [mallocBufRef, init, slabInitCap]⟩
    · intro b hb r hr
      obtain ⟨i, hi⟩ := hblock b hb
      obtain rfl := Option.some.inj (hi.symm.trans hr)
      rfl
  case stack =>
    intro b
    simp only [init, slabInitCap, List.mem_map, List.mem_range, List.length_append, List.length_map,
      List.length_range, and_true]
    constructor
    · rintro ⟨i, hi, rfl⟩
      omega
    · rintro ⟨hle, hlt⟩
      exact ⟨b - heap.length, by omega, by omega⟩
  case owed => exact fun b hb => absurd rfl hb
  case allocated => simp [init, slabInitCap]

section
variable {base slabCap : ℕ} {u : SlabUse}

theorem Inv.lt (h : Inv base slabCap u) {b : ℕ} (hb : u.owed b ≠ 0) : b < u.heap.length := by
  obtain ⟨-, buf, hbuf, -⟩ := h.owed b hb
  exact (List.getElem?_eq_some_iff.mp hbuf).1

theorem Inv.mem_live (h : Inv base slabCap u) (b : ℕ) : b ∈ u.live ↔ u.owed b ≠ 0 := by
  rw [live, Finset.mem_filter, Finset.mem_range]
  exact and_iff_right_of_imp h.lt

theorem Inv.live_card (h : Inv base slabCap u) :
    u.live.card + u.slab.bufRefs.length = max slabCap u.peak := by
  have hdisj : Disjoint u.live u.slab.bufRefs.toFinset := by
    rw [Finset.disjoint_left]
    intro b hb hs
    exact (h.mem_live b).mp hb ((h.stack b).mp (List.mem_toFinset.mp hs)).2
  have hunion : u.live ∪ u.slab.bufRefs.toFinset = Finset.Ico base u.heap.length := by
    ext b
    rw [Finset.mem_union, h.mem_live, List.mem_toFinset, h.stack, Finset.mem_Ico]
    constructor
    · rintro (hb | ⟨hb, -⟩)
      · exact ⟨(h.owed b hb).1, h.lt hb⟩
      · exact hb
    · intro hb
      by_cases ho : u.owed b = 0
      · exact .inr ⟨hb, ho⟩
      · exact .inl ho
  have hcard := congrArg Finset.card hunion
  rw [Finset.card_union_of_disjoint hdisj, List.toFinset_card_of_nodup h.wf.nodup, Nat.card_Ico,
    h.allocated] at hcard
  omega

theorem slabAcquire_length (heap : List BufRef) (s : Slab) (ref : ℕ) (junk : ℕ → ℕ → UInt8) :
    (slabAcquire heap s ref junk).1.length =
      if s.bufRefs = [] then heap.length + 1 else heap.length := by
  rcases List.eq_nil_or_concat s.bufRefs with hnil | ⟨rest, b, hrest⟩
  · simp [slabAcquire, hnil, setRef_length]
  · simp [slabAcquire, hrest, setRef_length]

theorem slabAcquire_cap (heap : List BufRef) (s : Slab) (ref : ℕ) (junk : ℕ → ℕ → UInt8) :
    (slabAcquire heap s ref junk).2.1.cap = s.cap := by
  unfold slabAcquire
  split <;> rfl

/-- The buffer `slab_acquire` returns has no outstanding references, and the
capacity of the stack stays as it is. -/
theorem Inv.acquire (h : Inv base slabCap u) {ref : ℕ} (hpos : 1 ≤ ref) (hlt : ref < 2 ^ 64)
    (junk : ℕ → ℕ → UInt8) :
    ∃ u' b, u.call (.acquire ref junk) = .ok u' ∧ (slabAcquire u.heap u.slab ref junk).2.2 = b ∧
      Inv base slabCap u' ∧ u.owed b = 0 ∧ u'.owed = Function.update u.owed b ref ∧
      u'.slab.cap = u.slab.cap := by
  obtain ⟨heap', s', b, buf, hacq, ha⟩ := h.wf.acquire ref junk
  have hlen := slabAcquire_length u.heap u.slab ref junk
  have hcap := slabAcquire_cap u.heap u.slab ref junk
  rw [hacq] at hlen hcap
  have hb : u.owed b = 0 ∧ base ≤ b := by
    rcases ha.source with hmem | rfl
    · have hst := (h.stack b).mp hmem
      exact ⟨hst.2, hst.1.1⟩
    · refine ⟨?_, by rw [h.allocated]; omega⟩
      by_contra hne
      exact lt_irrefl _ (h.lt hne)
  have hmono : u.heap.length ≤ heap'.length := by
    rw [hlen]
    split <;> omega
  have hbound : ∀ q, q ≠ b → (q < heap'.length ↔ q < u.heap.length) := by
    intro q hq
    exact ⟨fun hl => (ha.grown q hl).resolve_left hq, fun hl => lt_of_lt_of_le hl hmono⟩
  have hblt : b < heap'.length := (List.getElem?_eq_some_iff.mp ha.block).1
  have howed : ∀ q, Function.update u.owed b ref q = if q = b then ref else u.owed q :=
    fun q => Function.update_apply _ _ _ _
  have hlive : (SlabUse.live ⟨heap', s', Function.update u.owed b ref, u.peak⟩) =
      insert b u.live := by
    ext q
    rw [live, Finset.mem_filter, Finset.mem_range, Finset.mem_insert, h.mem_live]
    simp only [howed]
    by_cases hq : q = b
    · simp only [hq, if_true]
      simp only [hblt, true_or, iff_true, true_and]
      omega
    · rw [if_neg hq, hbound q hq, or_iff_right hq]
      exact and_iff_right_of_imp h.lt
  refine ⟨⟨heap', s', Function.update u.owed b ref, max u.peak (u.live.card + 1)⟩, b, ?_,
    by rw [hacq], ?_, hb.1, rfl, hcap⟩
  · have hoff : b ∉ u.live := by rw [h.mem_live]; exact not_not.mpr hb.1
    simp only [SlabUse.call, hacq, hlive, Finset.card_insert_of_notMem hoff]
  constructor
  case wf => exact ha.wf
  case stack =>
    intro q
    simp only [howed]
    by_cases hq : q = b
    · have hne : ref ≠ 0 := by omega
      simp [hq, ha.off, hne]
    · have hiff : q ∈ s'.bufRefs ↔ q ∈ u.slab.bufRefs :=
        ⟨ha.sub q, fun hm => (ha.keep q hm).resolve_left hq⟩
      rw [if_neg hq, hiff, h.stack, hbound q hq]
  case owed =>
    intro q hq
    simp only [howed] at hq ⊢
    by_cases he : q = b
    · subst he
      rw [if_pos rfl]
      exact ⟨hb.2, buf, ha.block, ha.length.trans ha.bufCap.symm, hlt⟩
    · rw [if_neg he] at hq ⊢
      obtain ⟨hle, buf', hbuf', hl, h64⟩ := h.owed q hq
      exact ⟨hle, buf', by rw [ha.same q (h.lt hq) he, hbuf'], hl.trans ha.bufCap.symm, h64⟩
  case allocated =>
    have hcard := h.live_card
    have hall := h.allocated
    simp only [hlen]
    split_ifs with hnil
    · rw [hnil, List.length_nil] at hcard
      omega
    · have := List.length_pos_of_ne_nil hnil
      omega

theorem slabRelease_cap {heap heap' : List BufRef} {s s' : Slab} {b : ℕ}
    (h : slabRelease heap s b = .ok (heap', s')) (hcap : s'.cap ≠ s.cap) :
    s.bufRefs.length = s.cap ∧ s'.cap = s.cap * 2 := by
  unfold slabRelease at h
  split at h
  · cases h
  · simp only at h
    split at h
    · simp only [Except.ok.injEq, Prod.mk.injEq] at h
      exact absurd (congrArg Slab.cap h.2.symm) hcap
    · simp only [Except.ok.injEq, Prod.mk.injEq] at h
      obtain ⟨-, rfl⟩ := h
      simp only at hcap ⊢
      split_ifs at hcap ⊢ with hfull
      · exact ⟨hfull.symm, rfl⟩
      · exact absurd rfl hcap

/-- A release puts the buffer on the stack if it was the last one owed, and only
counts down otherwise. -/
theorem Inv.release (h : Inv base slabCap u) {b : ℕ} (hb : u.owed b ≠ 0) :
    ∃ u', u.call (.release b) = .ok u' ∧ Inv base slabCap u' ∧
      u'.owed = Function.update u.owed b (u.owed b - 1) ∧
      (u.owed b = 1 → b ∈ u'.slab.bufRefs) ∧
      (u'.slab.cap ≠ u.slab.cap →
        u.owed b = 1 ∧ u.slab.bufRefs.length = u.slab.cap ∧ u'.slab.cap = u.slab.cap * 2) := by
  obtain ⟨hbase, buf, hbuf, hlen, h64⟩ := h.owed b hb
  have hoff : b ∉ u.slab.bufRefs := fun hm => hb ((h.stack b).mp hm).2
  have howed : ∀ n q, Function.update u.owed b n q = if q = b then n else u.owed q :=
    fun n q => Function.update_apply _ _ _ _
  have hkeep : ∀ heap' s', s'.Wf heap' → s'.bufCap = u.slab.bufCap → SameBut u.heap heap' b →
      heap'.length = u.heap.length → (u.owed b ≠ 1 → heap'[b]? = some ⟨u.owed b - 1, buf⟩) →
      (∀ q, q ∈ s'.bufRefs ↔ q ∈ u.slab.bufRefs ∨ q = b ∧ u.owed b = 1) →
      Inv base slabCap ⟨heap', s', Function.update u.owed b (u.owed b - 1), u.peak⟩ := by
    intro heap' s' hwf hcap hsame hl hblock hmem
    refine ⟨hwf, fun q => ?_, fun q hq => ?_, by rw [hl]; exact h.allocated⟩
    · simp only [howed, hmem, h.stack, hl]
      by_cases he : q = b
      · subst he
        have hltb := h.lt hb
        simp only [if_true, true_and]
        omega
      · simp [he]
    · simp only [howed] at hq ⊢
      by_cases he : q = b
      · subst he
        rw [if_pos rfl] at hq ⊢
        exact ⟨hbase, buf, hblock (by omega), hlen.trans hcap.symm, by omega⟩
      · rw [if_neg he] at hq ⊢
        obtain ⟨hle, buf', hbuf', hl', h64'⟩ := h.owed q hq
        exact ⟨hle, buf', by rw [hsame q (h.lt hq) he, hbuf'], hl'.trans hcap.symm, h64'⟩
  by_cases hone : u.owed b = 1
  · obtain ⟨heap', s', hrel, hwf, hcap, hrefs, hsame, hl⟩ := h.wf.release (hone ▸ hbuf) hlen hoff
    refine ⟨⟨heap', s', Function.update u.owed b (u.owed b - 1), u.peak⟩,
      by simp [SlabUse.call, hrel], hkeep heap' s' hwf hcap hsame hl (fun hne => absurd hone hne) ?_,
      rfl, fun _ => by simp [hrefs], fun hne => ⟨hone, slabRelease_cap hrel hne⟩⟩
    intro q
    simp [hrefs, hone]
  · have hsub : sizeSub (u.owed b) 1 = u.owed b - 1 := sizeSub_of_le (by omega) h64
    have hrel : slabRelease u.heap u.slab b = .ok (setRef u.heap b (u.owed b - 1), u.slab) := by
      have hne : u.owed b - 1 ≠ 0 := by omega
      simp [slabRelease, hbuf, hsub, hne]
    have hsame : SameBut u.heap (setRef u.heap b (u.owed b - 1)) b := by
      intro q _ hq
      rw [setRef_getElem?, if_neg hq]
    refine ⟨⟨setRef u.heap b (u.owed b - 1), u.slab, Function.update u.owed b (u.owed b - 1), u.peak⟩,
      by simp [SlabUse.call, hrel], hkeep _ _ (h.wf.congr hsame (List.Sublist.refl _) hoff rfl rfl) rfl
        hsame (setRef_length _ _ _) (fun _ => ?_) ?_, rfl, fun he => absurd he hone,
      fun hne => absurd rfl hne⟩
    · rw [setRef_getElem?, if_pos rfl, hbuf]
      rfl
    · intro q
      simp [hone]

theorem Inv.call (h : Inv base slabCap u) {c : SlabCall} (hc : u.Allowed c) :
    ∃ u', u.call c = .ok u' ∧ Inv base slabCap u' ∧ (u'.slab.cap ≠ u.slab.cap →
      ∃ b, c = .release b ∧ u.owed b = 1 ∧ u.slab.bufRefs.length = u.slab.cap) := by
  cases c with
  | acquire ref junk =>
    obtain ⟨u', b, hrun, -, h', -, -, hcap⟩ := h.acquire hc.1 hc.2 junk
    exact ⟨u', hrun, h', fun hne => absurd hcap hne⟩
  | release b =>
    obtain ⟨u', hrun, h', -, -, hcap⟩ := h.release hc
    refine ⟨u', hrun, h', fun hne => ?_⟩
    obtain ⟨hone, hlen, -⟩ := hcap hne
    exact ⟨b, rfl, hone, hlen⟩

theorem Inv.runAll (h : Inv base slabCap u) {calls : List SlabCall} (hcalls : u.AllowedRun calls) :
    ∃ u', runAll SlabUse.call u calls = .ok u' ∧ Inv base slabCap u' := by
  obtain ⟨u', hrun, -, h'⟩ := runAll_total
    (I := fun l (u : SlabUse) => u.AllowedRun l ∧ Inv base slabCap u)
    (by
      rintro c l u ⟨hcalls, h⟩
      obtain ⟨u₁, hc, h₁, -⟩ := h.call hcalls.1
      exact ⟨u₁, hc, hcalls.2 u₁ hc, h₁⟩)
    ⟨hcalls, h⟩
  exact ⟨u', hrun, h'⟩

omit base slabCap in
theorem AllowedRun.left {calls more : List SlabCall} (h : u.AllowedRun (calls ++ more)) :
    u.AllowedRun calls := by
  induction calls generalizing u with
  | nil => trivial
  | cons c calls ih => exact ⟨h.1, fun u₁ hc => ih (h.2 u₁ hc)⟩

end

/-- What holds of a slab between calls, whose blocks are those from `base` on. -/
structure Sound (base slabCap : ℕ) (u : SlabUse) : Prop where
  nodup : u.slab.bufRefs.Nodup
  stack : ∀ b, b ∈ u.slab.bufRefs ↔ (base ≤ b ∧ b < u.heap.length) ∧ b ∉ u.live
  count : ∀ b ∈ u.live, ∃ buf, u.heap[b]? = some ⟨u.owed b, buf⟩
  len_le : u.slab.bufRefs.length ≤ u.slab.cap
  allocated : u.heap.length = base + max slabCap u.peak

end SlabUse

end Caht

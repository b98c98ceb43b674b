import Caht.ClientMap.Model
import Mathlib.Data.List.GetD
import Mathlib.Logic.Function.Basic

/-! # The client map refines a finite map

`Represents cm m` says that the pointer structure `cm` stands for the partial
map `m` from client ids to nodes: the bucket chains and the free array share out
the allocated nodes, and each id of `m` sits in the chain its hash selects. Every
operation is then described by what it does to `m`.
-/

namespace Caht
open Library

/-- The pointer structure, with the list of pointers in each bucket. -/
structure ClientMap.Wf (cm : ClientMap) (chains : List (List ℕ)) : Prop where
  cap_pos : 0 < cm.bucketsCap
  buckets_length : cm.buckets.length = cm.bucketsCap
  chains_length : chains.length = cm.bucketsCap
  linked : ∀ i < cm.bucketsCap,
    IsChain ClientInfo.next cm.nodes (cm.buckets.getD i none) (chains.getD i [])
  places : (chains.flatten ++ cm.free).Perm (List.range cm.nodes.length)
  home : ∀ i < cm.bucketsCap, ∀ p ∈ chains.getD i [], ∀ n, cm.nodes[p]? = some n →
    ClientMap.hash cm.bucketsCap n.clientId = i
  zeroed : ∀ p ∈ cm.free, cm.nodes[p]? = some .zero
  free_le : cm.free.length ≤ cm.freeCap
  free_pos : 0 < cm.freeCap

/-- The chains hold exactly the entries of `m`. -/
def ClientMap.Holds (cm : ClientMap) (chains : List (List ℕ)) (m : UInt64 → Option ℕ) : Prop :=
  ∀ id p, m id = some p ↔ p ∈ chains.flatten ∧ ∃ n, cm.nodes[p]? = some n ∧ n.clientId = id

def ClientMap.Represents (cm : ClientMap) (m : UInt64 → Option ℕ) : Prop :=
  ∃ chains, cm.Wf chains ∧ cm.Holds chains m

/-- A node as its users see it, without the link. -/
def ClientMap.infoAt (cm : ClientMap) (p : ℕ) : Option ClientInfo :=
  (cm.nodes[p]?).map fun n => { n with next := none }

theorem ClientMap.hash_lt {cap : ℕ} (h : 0 < cap) (id : UInt64) : ClientMap.hash cap id < cap := by
  have hle : ClientMap.hash cap id ≤ cap - 1 := Nat.and_le_right
  omega

section
variable {cm : ClientMap} {chains : List (List ℕ)} {m : UInt64 → Option ℕ}

theorem ClientMap.Wf.mem_chain (h : cm.Wf chains) {p : ℕ} (hp : p ∈ chains.flatten) {n : ClientInfo}
    (hn : cm.nodes[p]? = some n) :
    p ∈ chains.getD (ClientMap.hash cm.bucketsCap n.clientId) [] := by
  obtain ⟨c, hc, hpc⟩ := List.mem_flatten.mp hp
  obtain ⟨i, hi, rfl⟩ := List.getElem_of_mem hc
  have hd : chains.getD i [] = chains[i] := List.getD_eq_getElem _ _ hi
  have hh := h.home i (h.chains_length ▸ hi) p (hd ▸ hpc) n hn
  rw [hh, hd]
  exact hpc

theorem ClientMap.Wf.nodup (h : cm.Wf chains) : (chains.flatten ++ cm.free).Nodup :=
  h.places.nodup_iff.mpr List.nodup_range

theorem ClientMap.Wf.chain_nodup (h : cm.Wf chains) (i : ℕ) : (chains.getD i []).Nodup := by
  by_cases hi : i < chains.length
  · rw [List.getD_eq_getElem _ _ hi]
    have hf := (List.nodup_append.mp h.nodup).1
    exact (List.nodup_flatten.mp hf).1 _ (List.getElem_mem hi)
  · simp [List.getD, List.getElem?_eq_none (Nat.le_of_not_lt hi)]

theorem ClientMap.Wf.lt (h : cm.Wf chains) {p : ℕ} (hp : p ∈ chains.flatten ++ cm.free) :
    p < cm.nodes.length := by
  simpa using h.places.mem_iff.mp hp

theorem ClientMap.Wf.not_free (h : cm.Wf chains) {p : ℕ} (hp : p ∈ chains.flatten) : p ∉ cm.free :=
  fun hf => (List.nodup_append.mp h.nodup).2.2 p hp p hf rfl

theorem ClientMap.Wf.home_unique (h : cm.Wf chains) {i j p : ℕ} (hi : i < cm.bucketsCap)
    (hj : j < cm.bucketsCap) (hpi : p ∈ chains.getD i []) (hpj : p ∈ chains.getD j []) : i = j := by
  have hlt := h.lt (List.mem_append_left _ (mem_flatten_of_getD hpi))
  have hn := List.getElem?_eq_getElem hlt
  exact (h.home i hi p hpi _ hn).symm.trans (h.home j hj p hpj _ hn)

/-- The search loop of the map answers what the represented map answers. -/
theorem ClientMap.Wf.find_eq (h : cm.Wf chains) (hm : cm.Holds chains m) (id : UInt64) :
    findFrom ClientInfo.next cm.nodes (fun n => n.clientId == id) cm.nodes.length (cm.bucket id) =
      .ok (m id) := by
  have hi := ClientMap.hash_lt h.cap_pos id
  have hc := h.linked _ hi
  have hle := hc.length_le (h.chain_nodup _)
  rw [ClientMap.bucket, findFrom_eq _ hc _ hle]
  congr 1
  cases hf : (chains.getD (ClientMap.hash cm.bucketsCap id) []).find?
      (testAt cm.nodes fun n => n.clientId == id) with
  | some p =>
    obtain ⟨n, hn, hid⟩ := testAt_eq_true.mp (List.find?_some hf)
    exact ((hm id p).mpr ⟨mem_flatten_of_getD (List.mem_of_find?_eq_some hf), n, hn,
      by simpa using hid⟩).symm
  | none =>
    symm
    rw [Option.eq_none_iff_forall_ne_some]
    intro p hp
    obtain ⟨hpf, n, hn, rfl⟩ := (hm id p).mp hp
    have hno := List.find?_eq_none.mp hf p (h.mem_chain hpf hn)
    exact hno (testAt_eq_true.mpr ⟨n, hn, by simp⟩)

theorem ClientMap.Represents.get (h : cm.Represents m) (id : UInt64) :
    clientMapGet cm id = .ok (m id) := by
  obtain ⟨chains, hw, hm⟩ := h
  exact hw.find_eq hm id

theorem ClientMap.Represents.clientId (h : cm.Represents m) {id : UInt64} {p : ℕ}
    (hp : m id = some p) : ∃ n, cm.nodes[p]? = some n ∧ n.clientId = id := by
  obtain ⟨chains, hw, hm⟩ := h
  exact ((hm id p).mp hp).2

theorem ClientMap.Represents.inj (h : cm.Represents m) {a b : UInt64} {p : ℕ}
    (ha : m a = some p) (hb : m b = some p) : a = b := by
  obtain ⟨n, hn, rfl⟩ := h.clientId ha
  obtain ⟨n', hn', rfl⟩ := h.clientId hb
  rw [Option.some.inj (hn.symm.trans hn')]

/-! ## Taking a node -/

/-- What `takeNode` hands out: a node outside every chain, fresh or zeroed. -/
structure ClientMap.Taken (cm : ClientMap) (chains : List (List ℕ)) (junk : ClientInfo)
    (cm' : ClientMap) (p : ℕ) (n : ClientInfo) : Prop where
  bucketsCap : cm'.bucketsCap = cm.bucketsCap
  buckets : cm'.buckets = cm.buckets
  freeCap : cm'.freeCap = cm.freeCap
  free_le : cm'.free.length ≤ cm.free.length
  places : (chains.flatten ++ p :: cm'.free).Perm (List.range cm'.nodes.length)
  node : cm'.nodes[p]? = some n
  kept : ∀ q ∈ chains.flatten, cm'.nodes[q]? = cm.nodes[q]?
  zeroed : ∀ q ∈ cm'.free, cm'.nodes[q]? = some .zero
  source : (cm.free = [] ∧ p = cm.nodes.length ∧ n = junk ∧ cm'.nodes.length = cm.nodes.length + 1) ∨
    (p ∈ cm.free ∧ n = .zero ∧ cm'.nodes = cm.nodes)

/-- The first slot of the free array is refilled from its last one. -/
theorem swapRemove_perm (a : ℕ) (l : List ℕ) :
    (a :: ((a :: l).set 0 ((a :: l).getLast (by simp))).dropLast).Perm (a :: l) := by
  rcases List.eq_nil_or_concat l with rfl | ⟨l', z, rfl⟩
  · simp
  · simp only [List.set_cons_zero]
    have hlast : (a :: (l' ++ [z])).getLast (by simp) = z := by simp
    have hdrop : (z :: (l' ++ [z])).dropLast = z :: l' := by
      rw [← List.cons_append, List.dropLast_concat]
    rw [List.concat_eq_append, hlast, hdrop]
    exact (List.perm_append_singleton z l').symm.cons a

theorem ClientMap.Wf.takeNode (h : cm.Wf chains) (junk : ClientInfo) :
    ∃ n, cm.Taken chains junk (cm.takeNode junk).1 (cm.takeNode junk).2 n := by
  cases hf : cm.free with
  | nil =>
    refine ⟨junk, ?_⟩
    have hpl := h.places
    rw [hf, List.append_nil] at hpl
    have hlt : ∀ q ∈ chains.flatten, q < cm.nodes.length := fun q hq => by
      simpa using hpl.mem_iff.mp hq
    constructor
    · simp [ClientMap.takeNode, hf]
    · simp [ClientMap.takeNode, hf]
    · simp [ClientMap.takeNode, hf]
    · simp [ClientMap.takeNode, hf]
    · simp only [ClientMap.takeNode, hf, List.length_append, List.length_singleton,
        List.range_succ]
      exact hpl.append_right _
    · simp [ClientMap.takeNode, hf]
    · intro q hq
      simp [ClientMap.takeNode, hf, List.getElem?_append_left (hlt q hq)]
    · simp [ClientMap.takeNode, hf]
    · exact .inl ⟨hf, by simp [ClientMap.takeNode, hf], rfl, by simp [ClientMap.takeNode, hf]⟩
  | cons a l =>
    have hsw := swapRemove_perm a l
    have hlen := hsw.length_eq
    refine ⟨.zero, ?_⟩
    constructor
    · simp [ClientMap.takeNode, hf]
    · simp [ClientMap.takeNode, hf]
    · simp [ClientMap.takeNode, hf]
    · simp [ClientMap.takeNode, hf]
    · simp only [ClientMap.takeNode, hf]
      have hpl := h.places
      rw [hf] at hpl
      exact (hsw.append_left _).trans hpl
    · simp only [ClientMap.takeNode, hf]
      exact h.zeroed a (by rw [hf]; simp)
    · simp [ClientMap.takeNode, hf]
    · simp only [ClientMap.takeNode, hf]
      intro q hq
      apply h.zeroed
      rw [hf]
      exact hsw.subset (List.mem_cons_of_mem _ hq)
    · exact .inr ⟨by simp [ClientMap.takeNode, hf], rfl, by simp [ClientMap.takeNode, hf]⟩

/-! ## Linking a node in -/

/-- Putting `p`, a node of no chain, at the head of the bucket of `id`. -/
def ClientMap.link (cm : ClientMap) (id : UInt64) (p : ℕ) : ClientMap :=
  { cm with
    buckets := cm.buckets.set (ClientMap.hash cm.bucketsCap id) (some p)
    nodes := cm.nodes.modify p fun n => { n with next := cm.bucket id, clientId := id } }

theorem ClientMap.link_node (cm : ClientMap) (id : UInt64) (p q : ℕ) :
    (cm.link id p).nodes[q]? = if q = p then
      (cm.nodes[q]?).map fun n => { n with next := cm.bucket id, clientId := id } else cm.nodes[q]? := by
  rw [ClientMap.link, List.getElem?_modify]
  by_cases h : q = p
  · simp [h]
  · simp [h, Ne.symm h]

section
variable {cm' : ClientMap} {p : ℕ} {n junk : ClientInfo}

theorem ClientMap.Taken.not_mem (ht : cm.Taken chains junk cm' p n) : p ∉ chains.flatten ∧ p ∉ cm'.free := by
  have hnd : (chains.flatten ++ p :: cm'.free).Nodup := ht.places.nodup_iff.mpr List.nodup_range
  obtain ⟨-, hcons, hapart⟩ := List.nodup_append.mp hnd
  exact ⟨fun hp => hapart p hp p List.mem_cons_self rfl, (List.nodup_cons.mp hcons).1⟩

theorem ClientMap.Taken.link_new (ht : cm.Taken chains junk cm' p n) (id : UInt64) :
    (cm'.link id p).nodes[p]? = some { n with next := cm'.bucket id, clientId := id } := by
  rw [ClientMap.link_node, if_pos rfl, ht.node]
  rfl

theorem ClientMap.Taken.link_old (ht : cm.Taken chains junk cm' p n) (id : UInt64) {q : ℕ}
    (hq : q ∈ chains.flatten) : (cm'.link id p).nodes[q]? = cm.nodes[q]? := by
  rw [ClientMap.link_node, if_neg (fun he : q = p => ht.not_mem.1 (he ▸ hq)), ht.kept q hq]

end

theorem ClientMap.Wf.link (h : cm.Wf chains) {cm' : ClientMap} {p : ℕ} {n junk : ClientInfo}
    (ht : cm.Taken chains junk cm' p n) (id : UInt64) :
    (cm'.link id p).Wf (pushChain chains (ClientMap.hash cm.bucketsCap id) p) := by
  have hi := ClientMap.hash_lt h.cap_pos id
  have hic : ClientMap.hash cm.bucketsCap id < chains.length := h.chains_length ▸ hi
  have hib : ClientMap.hash cm.bucketsCap id < cm.buckets.length := h.buckets_length ▸ hi
  obtain ⟨hpc, hpf⟩ := ht.not_mem
  refine ⟨?_, ?_, ?_, ?_, ?_, ?_, ?_, ?_, ?_⟩
  · simpa [ClientMap.link, ht.bucketsCap] using h.cap_pos
  · simpa [ClientMap.link, ht.bucketsCap, ht.buckets] using h.buckets_length
  · simpa [ClientMap.link, pushChain, ht.bucketsCap] using h.chains_length
  · intro j hj
    replace hj : j < cm.bucketsCap := by simpa [ClientMap.link, ht.bucketsCap] using hj
    have hbk : (cm'.link id p).buckets =
        cm.buckets.set (ClientMap.hash cm.bucketsCap id) (some p) := by
      simp [ClientMap.link, ht.bucketsCap, ht.buckets]
    have hnext : cm'.bucket id = cm.buckets.getD (ClientMap.hash cm.bucketsCap id) none := by
      rw [ClientMap.bucket, ht.buckets, ht.bucketsCap]
    rw [hbk]
    refine isChain_push hib hic (fun j hj => h.linked j (h.chains_length ▸ hj)) (ht.link_new id) hnext
      ?_ (h.chains_length.symm ▸ hj)
    intro q hq
    rw [ht.link_old id hq]
  · have hl : (cm'.link id p).nodes.length = cm'.nodes.length := by simp [ClientMap.link]
    rw [hl]
    refine List.Perm.trans ?_ ht.places
    have hp := (pushChain_perm chains _ p hic).append_right cm'.free
    exact hp.trans (List.perm_middle.symm)
  · intro j hj q hq nq hnq
    replace hj : j < cm.bucketsCap := by simpa [ClientMap.link, ht.bucketsCap] using hj
    simp only [ClientMap.link, ht.bucketsCap]
    rw [ClientMap.link_node] at hnq
    rw [pushChain, getD_set_eq _ _ _ _ _ hic] at hq
    by_cases hqp : q = p
    · subst hqp
      rw [if_pos rfl, ht.node] at hnq
      obtain rfl := Option.some.inj hnq
      by_cases he : j = ClientMap.hash cm.bucketsCap id
      · exact he.symm
      · rw [if_neg he] at hq
        exact absurd (mem_flatten_of_getD hq) hpc
    · rw [if_neg hqp] at hnq
      have hq' : q ∈ chains.getD j [] := by
        by_cases he : j = ClientMap.hash cm.bucketsCap id
        · rw [if_pos he] at hq
          exact he ▸ (List.mem_cons.mp hq).resolve_left hqp
        · rwa [if_neg he] at hq
      rw [ht.kept q (mem_flatten_of_getD hq')] at hnq
      exact h.home j hj q hq' nq hnq
  · intro q hq
    rw [ClientMap.link_node, if_neg (fun he : q = p => hpf (he ▸ hq))]
    exact ht.zeroed q hq
  · simpa [ClientMap.link, ht.freeCap] using ht.free_le.trans h.free_le
  · simpa [ClientMap.link, ht.freeCap] using h.free_pos

/-- What a successful `client_map_new_entry` does: `id` now maps to `p`, a node
that was live for no id, either new from `malloc` or recycled and zero but for
the two fields the map sets. All other entries keep their nodes and contents. -/
structure ClientMap.Entered (cm : ClientMap) (m : UInt64 → Option ℕ) (id : UInt64)
    (junk : ClientInfo) (cm' : ClientMap) (p : ℕ) : Prop where
  represents : cm'.Represents (Function.update m id (some p))
  bucketsCap : cm'.bucketsCap = cm.bucketsCap
  fresh : ∀ a, m a ≠ some p
  source : (cm.free = [] ∧ cm'.free = [] ∧ p = cm.nodes.length ∧
      cm'.nodes.length = cm.nodes.length + 1 ∧
      cm'.infoAt p = some { junk with clientId := id, next := none }) ∨
    (p ∈ cm.free ∧ cm'.free.length + 1 = cm.free.length ∧ cm'.nodes.length = cm.nodes.length ∧
      cm'.infoAt p = some { ClientInfo.zero with clientId := id })
  kept : ∀ a q, m a = some q → cm'.infoAt q = cm.infoAt q

theorem ClientMap.Represents.newEntry_false (h : cm.Represents m) {id : UInt64} {p : ℕ}
    (hid : m id = some p) (junk : ClientInfo) :
    clientMapNewEntry cm id junk = .ok (cm, none) := by
  obtain ⟨chains, hw, hm⟩ := h
  rw [clientMapNewEntry, hw.find_eq hm, hid]
  rfl

theorem ClientMap.Represents.newEntry (h : cm.Represents m) {id : UInt64} (hid : m id = none)
    (junk : ClientInfo) :
    ∃ cm' p, clientMapNewEntry cm id junk = .ok (cm', some p) ∧ cm.Entered m id junk cm' p := by
  obtain ⟨chains, hw, hm⟩ := h
  obtain ⟨n, ht⟩ := hw.takeNode junk
  generalize htk : cm.takeNode junk = r at ht
  obtain ⟨cm', p⟩ := r
  replace ht : cm.Taken chains junk cm' p n := ht
  have hic : ClientMap.hash cm.bucketsCap id < chains.length :=
    hw.chains_length ▸ ClientMap.hash_lt hw.cap_pos id
  have hkept : ∀ q ∈ chains.flatten, (cm'.link id p).nodes[q]? = cm.nodes[q]? :=
    fun q hq => ht.link_old id hq
  have hnew := ht.link_new id
  refine ⟨cm'.link id p, p, ?_, ⟨_, hw.link ht id, ?_⟩, ht.bucketsCap, ?_, ?_, ?_⟩
  · rw [clientMapNewEntry, hw.find_eq hm, hid, htk]
    rfl
  · intro a q
    have hmem : q ∈ (pushChain chains (ClientMap.hash cm.bucketsCap id) p).flatten ↔
        q = p ∨ q ∈ chains.flatten := by
      rw [(pushChain_perm chains _ p hic).mem_iff, List.mem_cons]
    rw [hmem]
    by_cases ha : a = id
    · subst ha
      rw [Function.update_self]
      constructor
      · intro hq
        obtain rfl := Option.some.inj hq
        exact ⟨.inl rfl, _, hnew, rfl⟩
      · rintro ⟨rfl | hq, nq, hnq, hida⟩
        · rfl
        · rw [hkept q hq] at hnq
          have hma := (hm a q).mpr ⟨hq, nq, hnq, hida⟩
          rw [hid] at hma
          cases hma
    · rw [Function.update_of_ne ha, hm]
      constructor
      · rintro ⟨hq, nq, hnq, hida⟩
        exact ⟨.inr hq, nq, by rw [hkept q hq, hnq], hida⟩
      · rintro ⟨rfl | hq, nq, hnq, hida⟩
        · rw [hnew] at hnq
          obtain rfl := Option.some.inj hnq
          exact absurd hida.symm ha
        · exact ⟨hq, nq, by rw [← hkept q hq, hnq], hida⟩
  · intro a ha
    exact ht.not_mem.1 ((hm a p).mp ha).1
  · have hinfo : (cm'.link id p).infoAt p = some { n with clientId := id, next := none } := by
      rw [ClientMap.infoAt, hnew]
      rfl
    have hlen : (cm'.link id p).nodes.length = cm'.nodes.length := by simp [ClientMap.link]
    have hplaces := ht.places.length_eq
    have hplaces' := hw.places.length_eq
    simp only [List.length_append, List.length_cons, List.length_range] at hplaces hplaces'
    rcases ht.source with ⟨hf, rfl, rfl, hl⟩ | ⟨hf, rfl, hl⟩
    · refine .inl ⟨hf, ?_, rfl, by rw [hlen, hl], hinfo⟩
      rw [hf] at hplaces'
      apply List.eq_nil_of_length_eq_zero
      change cm'.free.length = 0
      simp only [List.length_nil] at hplaces'
      omega
    · refine .inr ⟨hf, ?_, by rw [hlen, hl], hinfo⟩
      change cm'.free.length + 1 = _
      rw [hl] at hplaces
      omega
  · intro a q hq
    rw [ClientMap.infoAt, ClientMap.infoAt, hkept q ((hm a q).mp hq).1]

/-! ## Unlinking a node -/

theorem ClientMap.addFree_node (cm : ClientMap) {p : ℕ} (hp : p < cm.nodes.length) (q : ℕ) :
    (clientMapAddFree cm p).nodes[q]? = if q = p then some .zero else cm.nodes[q]? := by
  by_cases h : q = p
  · subst h
    simp [clientMapAddFree, hp]
  · simp [clientMapAddFree, h, List.getElem?_set_ne (Ne.symm h)]

/-- A structure in which `p` has just been bypassed in chain `i`: the chain is
now `c`, no client id has changed and the other chains keep their links. -/
structure ClientMap.Bypassed (cm : ClientMap) (chains : List (List ℕ)) (i p : ℕ) (c : List ℕ)
    (cm' : ClientMap) : Prop where
  bucketsCap : cm'.bucketsCap = cm.bucketsCap
  buckets_length : cm'.buckets.length = cm.buckets.length
  freeCap : cm'.freeCap = cm.freeCap
  free : cm'.free = cm.free
  nodes_length : cm'.nodes.length = cm.nodes.length
  lt : i < cm.bucketsCap
  chain : (p :: c).Perm (chains.getD i [])
  linked : IsChain ClientInfo.next cm'.nodes (cm'.buckets.getD i none) c
  others : ∀ j < cm.bucketsCap, j ≠ i → cm'.buckets.getD j none = cm.buckets.getD j none ∧
    ∀ q ∈ chains.getD j [], cm'.nodes[q]? = cm.nodes[q]?
  infos : ∀ q, cm'.infoAt q = cm.infoAt q
  frees : ∀ q ∈ cm.free, cm'.nodes[q]? = cm.nodes[q]?

section
variable {cm' : ClientMap} {i p : ℕ} {c : List ℕ}

theorem ClientMap.Bypassed.lt_chains (hb : cm.Bypassed chains i p c cm') (h : cm.Wf chains) :
    i < chains.length := h.chains_length ▸ hb.lt

theorem ClientMap.Bypassed.mem (hb : cm.Bypassed chains i p c cm') : p ∈ chains.getD i [] :=
  hb.chain.subset List.mem_cons_self

theorem ClientMap.Bypassed.lt_nodes (hb : cm.Bypassed chains i p c cm') (h : cm.Wf chains) :
    p < cm'.nodes.length := by
  rw [hb.nodes_length]
  exact h.lt (List.mem_append_left _ (mem_flatten_of_getD hb.mem))

theorem ClientMap.Bypassed.perm (hb : cm.Bypassed chains i p c cm') (h : cm.Wf chains) :
    (p :: (chains.set i c).flatten).Perm chains.flatten := unlinkChain_perm (hb.lt_chains h) hb.chain

theorem ClientMap.Bypassed.not_mem (hb : cm.Bypassed chains i p c cm') (h : cm.Wf chains) :
    p ∉ (chains.set i c).flatten :=
  (List.nodup_cons.mp ((hb.perm h).nodup_iff.mpr (List.nodup_append.mp h.nodup).1)).1

theorem ClientMap.Bypassed.mem_chain (hb : cm.Bypassed chains i p c cm') (h : cm.Wf chains) {j q : ℕ}
    (hq : q ∈ (chains.set i c).getD j []) : q ∈ chains.getD j [] ∧ q ≠ p := by
  refine ⟨?_, ?_⟩
  · rw [getD_set_eq _ _ _ _ _ (hb.lt_chains h)] at hq
    by_cases he : j = i
    · subst he
      rw [if_pos rfl] at hq
      exact hb.chain.subset (List.mem_cons_of_mem _ hq)
    · rwa [if_neg he] at hq
  · rintro rfl
    exact hb.not_mem h (mem_flatten_of_getD hq)

theorem ClientMap.Bypassed.infoAt (hb : cm.Bypassed chains i p c cm') (h : cm.Wf chains) {q : ℕ}
    (hq : q ≠ p) : (clientMapAddFree cm' p).infoAt q = cm.infoAt q := by
  rw [ClientMap.infoAt, ClientMap.addFree_node _ (hb.lt_nodes h), if_neg hq, ← hb.infos q,
    ClientMap.infoAt]

theorem ClientMap.Bypassed.clientId_iff (hb : cm.Bypassed chains i p c cm') (h : cm.Wf chains) {q : ℕ}
    (hq : q ≠ p) (a : UInt64) : (∃ n, (clientMapAddFree cm' p).nodes[q]? = some n ∧ n.clientId = a) ↔
      ∃ n, cm.nodes[q]? = some n ∧ n.clientId = a := by
  have he := congrArg (Option.map ClientInfo.clientId) (hb.infoAt h hq)
  simp only [ClientMap.infoAt, Option.map_map] at he
  rw [← Option.map_eq_some_iff, ← Option.map_eq_some_iff]
  exact Eq.congr_left he

end

theorem ClientMap.Wf.addFree (h : cm.Wf chains) {cm' : ClientMap} {i p : ℕ} {c : List ℕ}
    (hb : cm.Bypassed chains i p c cm') : (clientMapAddFree cm' p).Wf (chains.set i c) := by
  have hic := hb.lt_chains h
  have hplt := hb.lt_nodes h
  refine ⟨?_, ?_, ?_, ?_, ?_, ?_, ?_, ?_, ?_⟩
  · simpa [clientMapAddFree, hb.bucketsCap] using h.cap_pos
  · simpa [clientMapAddFree, hb.bucketsCap, hb.buckets_length] using h.buckets_length
  · simpa [clientMapAddFree, hb.bucketsCap] using h.chains_length
  · intro j hj
    replace hj : j < cm.bucketsCap := by simpa [clientMapAddFree, hb.bucketsCap] using hj
    rw [getD_set_eq _ _ _ _ _ hic]
    by_cases he : j = i
    · subst he
      rw [if_pos rfl]
      have hpc : p ∉ c := (List.nodup_cons.mp (hb.chain.nodup_iff.mpr (h.chain_nodup j))).1
      refine hb.linked.congr fun q hq => ?_
      rw [ClientMap.addFree_node _ hplt, if_neg (fun he : q = p => hpc (he ▸ hq))]
    · rw [if_neg he]
      obtain ⟨hbj, hnj⟩ := hb.others j hj he
      change IsChain _ _ (cm'.buckets.getD j none) _
      rw [hbj]
      refine (h.linked j hj).congr fun q hq => ?_
      have hqp : q ≠ p := fun hqp => he (h.home_unique hj hb.lt (hqp ▸ hq) hb.mem)
      rw [ClientMap.addFree_node _ hplt, if_neg hqp, hnj q hq]
  · have hl : (clientMapAddFree cm' p).nodes.length = cm.nodes.length := by
      simp [clientMapAddFree, hb.nodes_length]
    rw [hl]
    refine List.Perm.trans ?_ h.places
    change ((chains.set i c).flatten ++ (cm'.free ++ [p])).Perm _
    rw [hb.free, ← List.append_assoc]
    exact (List.perm_append_singleton _ _).trans ((hb.perm h).append_right cm.free)
  · intro j hj q hq n hn
    replace hj : j < cm.bucketsCap := by simpa [clientMapAddFree, hb.bucketsCap] using hj
    have hq' := hb.mem_chain h hq
    obtain ⟨n', hn', he⟩ := (hb.clientId_iff h hq'.2 n.clientId).mp ⟨n, hn, rfl⟩
    have hh := h.home j hj q hq'.1 n' hn'
    rw [he] at hh
    simpa [clientMapAddFree, hb.bucketsCap] using hh
  · intro q hq
    rw [ClientMap.addFree_node _ hplt]
    by_cases he : q = p
    · rw [if_pos he]
    · rw [if_neg he]
      have hqf : q ∈ cm.free := by
        have hq' : q ∈ cm'.free ++ [p] := hq
        rw [hb.free] at hq'
        simpa [he] using hq'
      rw [hb.frees q hqf]
      exact h.zeroed q hqf
  · have hle := h.free_le
    have hpos := h.free_pos
    simp only [clientMapAddFree, List.length_append, List.length_singleton, hb.free, hb.freeCap]
    split_ifs <;> omega
  · have hpos := h.free_pos
    simp only [clientMapAddFree, hb.free, hb.freeCap]
    split_ifs <;> omega

/-- What a successful `client_map_delete` does: `id` is gone, its node `p` is the
last one of the free array, and every other entry keeps its node and contents. -/
structure ClientMap.Removed (cm : ClientMap) (m : UInt64 → Option ℕ) (id : UInt64) (p : ℕ)
    (cm' : ClientMap) : Prop where
  represents : cm'.Represents (Function.update m id none)
  bucketsCap : cm'.bucketsCap = cm.bucketsCap
  free : cm'.free = cm.free ++ [p]
  nodes_length : cm'.nodes.length = cm.nodes.length
  kept : ∀ a q, a ≠ id → m a = some q → cm'.infoAt q = cm.infoAt q

theorem ClientMap.Wf.removed (h : cm.Wf chains) (hm : cm.Holds chains m) {id : UInt64} {i p : ℕ}
    (hp : m id = some p) {c : List ℕ} {cm' : ClientMap} (hb : cm.Bypassed chains i p c cm') :
    cm.Removed m id p (clientMapAddFree cm' p) := by
  have hperm := hb.perm h
  have hpn := hb.not_mem h
  have hid : ∀ q ≠ p, ∀ a, (∃ n, (clientMapAddFree cm' p).nodes[q]? = some n ∧ n.clientId = a) ↔
      ∃ n, cm.nodes[q]? = some n ∧ n.clientId = a := fun q hq a => hb.clientId_iff h hq a
  refine ⟨⟨_, h.addFree hb, ?_⟩, hb.bucketsCap, ?_, ?_, ?_⟩
  · intro a q
    by_cases ha : a = id
    · subst ha
      rw [Function.update_self]
      constructor
      · intro hq
        cases hq
      · rintro ⟨hq, hn⟩
        have hqp : q ≠ p := fun he => hpn (he ▸ hq)
        have hma := (hm a q).mpr ⟨hperm.subset (List.mem_cons_of_mem _ hq), (hid q hqp a).mp hn⟩
        exact absurd (Option.some.inj (hma.symm.trans hp)) hqp
    · rw [Function.update_of_ne ha, hm]
      constructor
      · rintro ⟨hq, hn⟩
        have hqp : q ≠ p := by
          rintro rfl
          obtain ⟨n, hn, rfl⟩ := hn
          obtain ⟨-, n', hn', rfl⟩ := (hm id q).mp hp
          exact ha (congrArg ClientInfo.clientId (Option.some.inj (hn.symm.trans hn')))
        exact ⟨(List.mem_cons.mp (hperm.symm.subset hq)).resolve_left hqp, (hid q hqp a).mpr hn⟩
      · rintro ⟨hq, hn⟩
        have hqp : q ≠ p := fun he => hpn (he ▸ hq)
        exact ⟨hperm.subset (List.mem_cons_of_mem _ hq), (hid q hqp a).mp hn⟩
  · simp [clientMapAddFree, hb.free]
  · simp [clientMapAddFree, hb.nodes_length]
  · intro a q ha hq
    refine hb.infoAt h ?_
    rintro rfl
    exact ha (ClientMap.Represents.inj ⟨chains, h, hm⟩ hq hp)

theorem ClientMap.Wf.bypass_head (h : cm.Wf chains) {i p : ℕ} {c : List ℕ} {n : ClientInfo}
    (hi : i < cm.bucketsCap) (hc : chains.getD i [] = p :: c) (hn : cm.nodes[p]? = some n) :
    cm.Bypassed chains i p c { cm with buckets := cm.buckets.set i n.next } := by
  have hib : i < cm.buckets.length := h.buckets_length ▸ hi
  have hl := h.linked i hi
  rw [hc] at hl
  obtain ⟨-, n', hn', hl⟩ := isChain_cons.mp hl
  obtain rfl : n = n' := Option.some.inj (hn.symm.trans hn')
  refine ⟨rfl, by simp, rfl, rfl, rfl, hi, by rw [hc], ?_, ?_, fun _ => rfl, fun _ _ => rfl⟩
  · change IsChain _ cm.nodes ((cm.buckets.set i n.next).getD i none) c
    rw [getD_set_eq _ _ _ _ _ hib, if_pos rfl]
    exact hl
  · intro j hj hji
    refine ⟨?_, fun _ _ => rfl⟩
    change (cm.buckets.set i n.next).getD j none = _
    rw [getD_set_eq _ _ _ _ _ hib, if_neg hji]

theorem ClientMap.Wf.bypass_next (h : cm.Wf chains) {i q p : ℕ} {l₁ l₂ : List ℕ} {n : ClientInfo}
    (hi : i < cm.bucketsCap) (hc : chains.getD i [] = l₁ ++ q :: p :: l₂)
    (hn : cm.nodes[p]? = some n) :
    cm.Bypassed chains i p (l₁ ++ q :: l₂)
      { cm with nodes := cm.nodes.modify q fun m => { m with next := n.next } } := by
  have hl := h.linked i hi
  have hd := h.chain_nodup i
  have hqi : q ∈ chains.getD i [] := by
    rw [hc]
    simp
  have hqlt := h.lt (List.mem_append_left _ (mem_flatten_of_getD hqi))
  rw [hc] at hl hd
  have hnode : ∀ r, (cm.nodes.modify q fun m => { m with next := n.next })[r]? =
      if r = q then (cm.nodes[r]?).map fun m => { m with next := n.next } else cm.nodes[r]? := by
    intro r
    rw [List.getElem?_modify]
    by_cases hr : r = q
    · simp [hr]
    · simp [hr, Ne.symm hr]
  refine ⟨rfl, rfl, rfl, rfl, by simp, hi, ?_, ?_, ?_, ?_, ?_⟩
  · rw [hc]
    apply List.perm_iff_count.mpr
    intro x
    simp only [List.count_append, List.count_cons]
    omega
  · obtain ⟨nq, hnq⟩ : ∃ nq, cm.nodes[q]? = some nq := ⟨_, List.getElem?_eq_getElem hqlt⟩
    refine hl.unlink { nq with next := n.next } n hd hn ?_ rfl ?_
    · rw [hnode, if_pos rfl, hnq]
      rfl
    · intro r hr
      rw [hnode, if_neg hr]
  · intro j hj hji
    refine ⟨rfl, fun r hr => ?_⟩
    have hrq : r ≠ q := fun hrq => hji (h.home_unique hj hi (hrq ▸ hr) hqi)
    rw [hnode, if_neg hrq]
  · intro r
    simp only [ClientMap.infoAt]
    rw [hnode]
    by_cases hr : r = q
    · rw [if_pos hr, Option.map_map]
      rfl
    · rw [if_neg hr]
  · intro r hr
    have hrq : r ≠ q := fun hrq => h.not_free (mem_flatten_of_getD hqi) (hrq ▸ hr)
    rw [hnode, if_neg hrq]

theorem ClientMap.Represents.delete (h : cm.Represents m) {id : UInt64} {p : ℕ}
    (hp : m id = some p) :
    ∃ cm', clientMapDelete cm id = .ok (cm', true) ∧ cm.Removed m id p cm' := by
  obtain ⟨chains, hw, hm⟩ := h
  have hi := ClientMap.hash_lt hw.cap_pos id
  obtain ⟨hpf, n, hn, hnid⟩ := (hm id p).mp hp
  have hpc : p ∈ chains.getD (ClientMap.hash cm.bucketsCap id) [] := hnid ▸ hw.mem_chain hpf hn
  have huniq : ∀ q ∈ chains.getD (ClientMap.hash cm.bucketsCap id) [], ∀ nq,
      cm.nodes[q]? = some nq → nq.clientId = id → q = p := by
    intro q hq nq hnq hqid
    exact Option.some.inj (((hm id q).mpr ⟨mem_flatten_of_getD hq, nq, hnq, hqid⟩).symm.trans hp)
  have hl := hw.linked _ hi
  have hd := hw.chain_nodup (ClientMap.hash cm.bucketsCap id)
  have hle := hl.length_le hd
  cases hc : chains.getD (ClientMap.hash cm.bucketsCap id) [] with
  | nil =>
    rw [hc] at hpc
    cases hpc
  | cons head l =>
    rw [hc] at hl hpc huniq hle
    obtain ⟨hbk, nh, hnh, hl⟩ := isChain_cons.mp hl
    replace hbk : cm.bucket id = some head := hbk
    by_cases hhead : nh.clientId = id
    · -- the node to delete is the head of its bucket
      obtain rfl := huniq head (List.mem_cons_self) nh hnh hhead
      refine ⟨_, ?_, hw.removed hm hp (hw.bypass_head hi hc hnh)⟩
      simp [clientMapDelete, hbk, hnh, hhead]
    · have hpl : p ∈ l := by
        refine (List.mem_cons.mp hpc).resolve_left ?_
        rintro rfl
        exact hhead (Option.some.inj (hnh.symm.trans hn) ▸ hnid)
      rw [List.length_cons] at hle
      rcases findPrevFrom_eq (fun n => n.clientId == id) hl cm.nodes.length head (by omega) with
        ⟨-, hall⟩ | ⟨l₁, q, l₂, rfl, hq, -, hfind⟩
      · have ht : testAt cm.nodes (fun n => n.clientId == id) p = true :=
          testAt_eq_true.mpr ⟨n, hn, by simp [hnid]⟩
        rw [hall p hpl] at ht
        cases ht
      · obtain ⟨nq, hnq, hqid⟩ := testAt_eq_true.mp hq
        obtain rfl := huniq q (by simp) nq hnq (by simpa using hqid)
        obtain rfl : nq = n := Option.some.inj (hnq.symm.trans hn)
        have hsplit : head :: (l₁ ++ q :: l₂) =
            (head :: l₁).dropLast ++ (head :: l₁).getLast (List.cons_ne_nil _ _) :: q :: l₂ := by
          have hb := List.dropLast_append_getLast (List.cons_ne_nil head l₁)
          rw [← List.cons_append]
          nth_rewrite 1 [← hb]
          simp
        rw [hsplit] at hc
        refine ⟨_, ?_, hw.removed hm hp (hw.bypass_next hi hc hnq)⟩
        simp [clientMapDelete, hbk, hnh, hhead, hfind, hnq]

theorem ClientMap.write_node (cm : ClientMap) (p q : ℕ) (f : ClientInfo → ClientInfo) :
    (cm.write p f).nodes[q]? = if q = p then
      (cm.nodes[q]?).map fun n => { f n with clientId := n.clientId, next := n.next }
      else cm.nodes[q]? := by
  rw [ClientMap.write, List.getElem?_modify]
  by_cases hq : q = p
  · simp [hq]
  · simp [hq, Ne.symm hq]

theorem ClientMap.Represents.write (h : cm.Represents m) {id : UInt64} {p : ℕ} (hp : m id = some p)
    (f : ClientInfo → ClientInfo) : (cm.write p f).Represents m := by
  obtain ⟨chains, hw, hm⟩ := h
  have hnext : ∀ q : ℕ, ((cm.write p f).nodes[q]?).map ClientInfo.next =
      (cm.nodes[q]?).map ClientInfo.next := by
    intro q
    rw [ClientMap.write_node]
    split_ifs
    · rw [Option.map_map]
      rfl
    · rfl
  have hid : ∀ q : ℕ, ((cm.write p f).nodes[q]?).map ClientInfo.clientId =
      (cm.nodes[q]?).map ClientInfo.clientId := by
    intro q
    rw [ClientMap.write_node]
    split_ifs
    · rw [Option.map_map]
      rfl
    · rfl
  have hpf := hw.not_free ((hm id p).mp hp).1
  refine ⟨chains, ⟨hw.cap_pos, hw.buckets_length, hw.chains_length, ?_, ?_, ?_, ?_, hw.free_le,
    hw.free_pos⟩, ?_⟩
  · intro i hi
    exact (hw.linked i hi).congr fun q _ => hnext q
  · simpa [ClientMap.write] using hw.places
  · intro i hi q hq n hn
    obtain ⟨n', hn', he⟩ := Option.map_eq_some_iff.mp
      ((hid q).symm.trans (congrArg (Option.map ClientInfo.clientId) hn))
    exact he ▸ hw.home i hi q hq n' hn'
  · intro q hq
    rw [ClientMap.write_node, if_neg fun he : q = p => hpf (he ▸ hq)]
    exact hw.zeroed q hq
  · intro a q
    rw [hm, ← Option.map_eq_some_iff, ← Option.map_eq_some_iff, hid]

end

end Caht

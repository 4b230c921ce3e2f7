import Hipfire.Draft.Grown
/-!
# Optimal — the best-first draft tree holds the heaviest candidates

Over exact log-weights, with rows sorted and no positive entry, a candidate weighs at most what the candidate that put it
into the heap weighs.  So the loop is a heaviest-first search (`Ranked`), and what it takes is the heaviest of all.
-/
namespace Hipfire.Draft

open List

variable {W : Type} {t : Tables W}

/-! ## All candidates -/

theorem below_ranks {up : List Nat} (h : Below (succs t) [0] (0 :: up)) : ∀ {r : Nat}, r < t.topk →
    Below (succs t) [0] (r :: up)
  | 0, _ => h
  | r + 1, hr => (below_ranks h (Nat.lt_of_succ_lt hr)).tail (mem_succs.2 ⟨r, up, rfl, .inl ⟨hr, rfl⟩⟩)

theorem below_of_candidate : ∀ {p : List Nat}, Candidate t p → Below (succs t) [0] p
  | [], h => absurd rfl h.nonempty
  | [r], h => below_ranks .refl (h.rank r mem_cons_self)
  | r :: s :: up, h => by
    have hup : Below (succs t) [0] (s :: up) := below_of_candidate
      ⟨cons_ne_nil _ _, Nat.le_of_succ_le h.depth, (forall_mem_cons.1 h.rank).2⟩
    exact below_ranks (hup.tail (mem_succs.2 ⟨s, up, rfl, .inr ⟨h.depth, rfl⟩⟩)) (h.rank r mem_cons_self)

theorem finite_candidates (t : Tables W) : {p | Candidate t p}.Finite := by
  have hfin := (finite_length_le (Fin t.topk) t.depth).image (map Fin.val)
  refine hfin.subset fun p hp => ⟨p.pmap Fin.mk hp.rank, ?_, ?_⟩
  · show (p.pmap Fin.mk hp.rank).length ≤ t.depth
    rw [length_pmap]
    exact hp.depth
  · rw [map_pmap]
    exact pmap_eq_self.2 fun _ _ => rfl

theorem siblings_taken {done front : List (List Nat)} (h : Searched (succs t) [0] done front) {r' : Nat} {up : List Nat} :
    ∀ {r : Nat}, r :: up ∈ done → r' < r → r' :: up ∈ done
  | 0, _, hlt => absurd hlt (Nat.not_lt_zero _)
  | r + 1, hmem, hlt => by
    have hprev : r :: up ∈ done := by
      rcases (h.seen _).1 (mem_append_left front hmem) with heq | ⟨p, hp, hsucc⟩
      · cases heq
      · obtain ⟨s, up', rfl, ⟨-, heq⟩ | ⟨-, heq⟩⟩ := mem_succs.1 hsucc
        · obtain ⟨hrank, rfl⟩ := cons.inj heq
          exact Nat.succ.inj hrank ▸ hp
        · cases heq
    rcases Nat.lt_or_ge r' r with hlt' | hge
    · exact siblings_taken h hprev hlt'
    · exact (Nat.le_antisymm (Nat.le_of_lt_succ hlt) hge) ▸ hprev

/-! ## Where the loop stops -/

section Loop

variable [Zero W] [Add W] [Sub W] [Neg W] [LT W] [DecidableLT W]

/-- Without a cutoff the loop stops for the budget or because the heap is empty. -/
theorem grow_stop (heap : Heap (HeapEntry W)) (minNodes : Nat) : ∀ (left : Nat) (b : Build W),
    (grow heap t minNodes none left b).heap = [] ∧ (grow heap t minNodes none left b).nodes.length ≤ b.nodes.length + left ∨
    (grow heap t minNodes none left b).nodes.length = b.nodes.length + left
  | 0, b => .inr rfl
  | left + 1, b => by
    unfold grow
    split
    · rename_i hpop
      exact .inl ⟨heap.pop_eq_none hpop, Nat.le_add_right _ _⟩
    rename_i e rest hpop
    rw [if_neg (by simp [below])]
    have := grow_stop heap minNodes left ({ b with heap := rest }.expand t e)
    have hlen : (({ b with heap := rest } : Build W).expand t e).nodes.length = b.nodes.length + 1 := by simp
    rw [hlen, Nat.add_assoc, Nat.add_comm 1] at this
    exact this

theorem nodes_prefix_grow (heap : Heap (HeapEntry W)) (minNodes : Nat) (cutoff : Option W) (left : Nat) (b : Build W) :
    b.nodes <+: (grow heap t minNodes cutoff left b).nodes := by
  refine grow_inv (P := fun c => b.nodes <+: c.nodes) (fun {c e rest} h _ => ?_) left (prefix_refl _)
  rw [expand_nodes]
  exact h.trans (prefix_append ..)

/-- **A cutoff cuts the sequence of nodes at the first one below it, from the floor on.** -/
theorem grow_cut (heap : Heap (HeapEntry W)) (minNodes floor : Nat) (cutoff : Option W) : ∀ (left : Nat) (b : Build W),
    ∃ k, b.nodes.length ≤ k ∧
      (grow heap t floor cutoff left b).nodes = (grow heap t minNodes none left b).nodes.take k ∧
      (∀ i n, b.nodes.length ≤ i → i < k → floor ≤ i → (grow heap t minNodes none left b).nodes[i]? = some n →
        below cutoff n.logw = false) ∧
      ∀ n, (grow heap t minNodes none left b).nodes[k]? = some n → floor ≤ k ∧ below cutoff n.logw = true
  | 0, b => by
    exact ⟨b.nodes.length, le_rfl, (take_length).symm, fun i n h1 h2 => by omega, fun n hn =>
      absurd (lt_of_getElem? hn) (Nat.lt_irrefl _)⟩
  | left + 1, b => by
    unfold grow
    cases hpop : heap.pop b.heap with
    | none =>
      exact ⟨b.nodes.length, le_rfl, (take_length).symm, fun i n h1 h2 => by omega, fun n hn =>
        absurd (lt_of_getElem? hn) (Nat.lt_irrefl _)⟩
    | some p =>
      obtain ⟨e, rest⟩ := p
      dsimp only
      rw [if_neg (by simp [below] : ¬ (minNodes ≤ b.nodes.length ∧ below (none : Option W) e.logw = true))]
      generalize hc : ({ b with heap := rest } : Build W).expand t e = c
      have hnodes : c.nodes = b.nodes ++ [_] := hc ▸ expand_nodes
      obtain ⟨more, hmore⟩ := nodes_prefix_grow heap (t := t) minNodes none left c
      have hnext : (grow heap t minNodes none left c).nodes[b.nodes.length]? =
          some ⟨t.token (e.depth - 1) e.rank, e.depth, e.parentIndex, e.logw, e.path⟩ := by
        rw [← hmore, hnodes, append_assoc, getElem?_append_right le_rfl, Nat.sub_self]
        rfl
      split
      · rename_i hcut
        refine ⟨b.nodes.length, le_rfl, ?_, fun i n h1 h2 => by omega, fun n hn => ?_⟩
        · rw [← hmore, hnodes, append_assoc, take_left]
        · cases hnext.symm.trans hn
          exact hcut
      · rename_i hcut
        obtain ⟨k, hk, hres, hbefore, hend⟩ := grow_cut heap minNodes floor cutoff left c
        rw [hnodes, length_append, length_singleton] at hk hbefore
        refine ⟨k, by omega, hres, fun i n h1 h2 h3 hi => ?_, hend⟩
        rcases Nat.lt_or_ge b.nodes.length i with hlt | hge
        · exact hbefore i n hlt h2 h3 hi
        · obtain rfl : i = b.nodes.length := by omega
          cases hnext.symm.trans hi
          exact Bool.eq_false_iff.2 fun hb => hcut ⟨h3, hb⟩

end Loop

/-! ## Weights -/

section Weights

variable [AddCommGroup W]

/-- The cumulative log-weight of a candidate. -/
def weight (t : Tables W) : List Nat → W
  | [] => 0
  | r :: up => weight t up + t.logProb up.length r

/-- The log-weights of the entries and nodes are those of their candidates. -/
structure Weighed (t : Tables W) (b : Build W) : Prop where
  entries : ∀ e ∈ b.heap, e.logw = weight t e.path ∧ e.negLogw = -e.logw
  nodes : ∀ n ∈ b.nodes, n.logw = weight t n.path

theorem Weighed.expand {b : Build W} {e : HeapEntry W} {rest : List (HeapEntry W)} (h : Weighed t b)
    (hpop : b.heap.Perm (e :: rest)) (he : EntryOk b.nodes e) : Weighed t ({ b with heap := rest }.expand t e) := by
  have hw := (h.entries e (hpop.mem_iff.2 mem_cons_self)).1
  have htail : e.depth - 1 = e.path.tail.length := by rw [he.depth, he.path]; rfl
  have hsplit : weight t e.path = weight t e.path.tail + t.logProb e.path.tail.length e.rank := by
    conv_lhs => rw [he.path]
    rfl
  have hold : ∀ e' ∈ rest, e'.logw = weight t e'.path ∧ e'.negLogw = -e'.logw := fun e' hmem =>
    h.entries e' (hpop.mem_iff.2 (mem_cons_of_mem _ hmem))
  have hsibling : ∀ e' ∈ (({ b with heap := rest }.place t e).pushSibling t e).heap,
      e'.logw = weight t e'.path ∧ e'.negLogw = -e'.logw := by
    unfold Build.pushSibling
    split
    · refine forall_mem_append.2 ⟨hold, forall_mem_singleton.2 ⟨?_, rfl⟩⟩
      rw [hw, hsplit, htail, weight, add_sub_cancel_right]
    · exact hold
  constructor
  · unfold Build.expand Build.pushChild
    split
    · refine forall_mem_append.2 ⟨hsibling, forall_mem_singleton.2 ⟨?_, rfl⟩⟩
      rw [hw, he.depth, weight]
    · exact hsibling
  · rw [expand_nodes]
    exact forall_mem_append.2 ⟨h.nodes, forall_mem_singleton.2 hw⟩

variable [LinearOrder W]

/-- Tables of the right size, with sorted rows of log-probabilities. -/
structure Ordered (t : Tables W) : Prop where
  tokens : t.topTokens.length = t.depth * t.topk
  logProbs : t.topLogProbs.length = t.depth * t.topk
  sorted : ∀ d < t.depth, ∀ r < t.topk, r + 1 < t.topk → t.logProb d (r + 1) ≤ t.logProb d r
  nonpos : ∀ x ∈ t.topLogProbs, x ≤ 0

theorem logProb_nonpos (ht : Ordered t) (d r : Nat) : t.logProb d r ≤ 0 := by
  unfold Tables.logProb
  rw [getD_eq_getElem?_getD]
  cases h : t.topLogProbs[d * t.topk + r]? with
  | none => exact le_rfl
  | some x => exact ht.nonpos x (mem_of_getElem? h)

theorem build_eq (ht : Ordered t) {maxNodes : Nat} (hmax : 1 ≤ maxNodes) (hdepth : 0 < t.depth)
    (heap : Heap (HeapEntry W)) (minNodes : Nat) (cutoff : Option W) :
    buildDdtreeTreeBounded heap t minNodes maxNodes cutoff = t.topLogProbs[0]?.map fun first =>
      let b := grow heap t minNodes cutoff maxNodes (seed first)
      ⟨b.nodes, visibilityRows (1 + b.nodes.length) b.nodes, b.childMaps⟩ := by
  unfold buildDdtreeTreeBounded
  rw [if_neg (by omega), if_neg (by simp [ht.tokens, ht.logProbs])]

variable [IsOrderedAddMonoid W]

theorem weight_succs (ht : Ordered t) : ∀ a, ∀ c ∈ succs t a, weight t c ≤ weight t a := by
  intro a c hc
  obtain ⟨r, up, rfl, ⟨hr, rfl⟩ | ⟨-, rfl⟩⟩ := mem_succs.1 hc
  · refine add_le_add_right ?_ _
    rcases Nat.lt_or_ge up.length t.depth with hlt | hge
    · exact ht.sorted _ hlt r (Nat.lt_of_succ_lt hr) hr
    have hout : ∀ k, t.logProb up.length k = 0 := fun k => by
      unfold Tables.logProb
      rw [getD_eq_getElem?_getD, getElem?_eq_none, Option.getD_none]
      rw [ht.logProbs]
      exact (Nat.mul_le_mul_right _ hge).trans (Nat.le_add_right _ _)
    rw [hout, hout]
  · exact add_le_of_nonpos_right (logProb_nonpos ht _ _)

/-- What holds at every turn of the heaviest-first loop. -/
structure Searching (t : Tables W) (b : Build W) : Prop where
  grown : Grown t b
  weighed : Weighed t b
  ranked : Ranked (weight t) (b.nodes.map DdNode.path) (b.heap.map HeapEntry.path)

theorem searching_grow (ht : Ordered t) (minNodes left : Nat) (cutoff : Option W) {first : W}
    (hfirst : first = t.logProb 0 0) : Searching t (grow logwHeap t minNodes cutoff left (seed first)) := by
  refine grow_inv (fun {b e rest} h hpop => ?_) left ⟨grown_seed t first, ⟨fun e he => ?_, nofun⟩,
    Pairwise.nil, nofun⟩
  · obtain ⟨hperm, hbest⟩ := popKey_spec _ hpop
    have he := h.grown.entries e (hperm.mem_iff.2 mem_cons_self)
    refine ⟨h.grown.expand hperm, h.weighed.expand hperm he, ?_⟩
    rw [expand_nodes, map_append, expand_paths he.path he.depth]
    refine h.ranked.take (weight_succs ht) (hperm.map _) (fun p hp => ?_) (Perm.refl _)
    obtain ⟨x, hx, rfl⟩ := mem_map.1 hp
    obtain ⟨hwe, hne⟩ := h.weighed.entries e (hperm.mem_iff.2 mem_cons_self)
    obtain ⟨hwx, hnx⟩ := h.weighed.entries x (hperm.mem_iff.2 (mem_cons_of_mem _ hx))
    have hle : e.negLogw ≤ x.negLogw := by
      rcases (Prod.Lex.toLex_le_toLex.1 (hbest x hx)) with hlt | ⟨heq, -⟩
      · exact hlt.le
      · exact heq.le
    rw [hne, hnx, neg_le_neg_iff, hwe, hwx] at hle
    exact hle
  · rw [mem_singleton.1 he]
    exact ⟨hfirst.trans (zero_add _).symm, rfl⟩

/-- The nodes are the `maxNodes` heaviest candidates (or all), the heaviest first and every parent before its children. -/
structure BestNodes (t : Tables W) (maxNodes : Nat) (nodes : List (DdNode W)) : Prop where
  candidate : ∀ n ∈ nodes, Candidate t n.path
  -- the fields of a node are those of its candidate
  read : ∀ n ∈ nodes, ∃ r, n.path = r :: n.path.tail ∧ n.token = t.token n.path.tail.length r ∧ n.depth = n.path.length ∧
    n.logw = weight t n.path
  parent : ∀ i n, nodes[i]? = some n → n.path.tail = [] ∧ n.parentIndex = -1 ∨
    ∃ (p : Nat) (m : DdNode W), p < i ∧ n.parentIndex = (p : Int) ∧ nodes[p]? = some m ∧ m.path = n.path.tail
  sibling : ∀ r r' up, r :: up ∈ nodes.map DdNode.path → r' < r → r' :: up ∈ nodes.map DdNode.path
  distinct : (nodes.map DdNode.path).Nodup
  count : nodes.length = min maxNodes {p | Candidate t p}.ncard
  heaviest : ∀ p, Candidate t p → p ∉ nodes.map DdNode.path → ∀ n ∈ nodes, weight t p ≤ n.logw
  sorted : nodes.Pairwise fun a b => b.logw ≤ a.logw

theorem bestNodes_of_searching (ht : Ordered t) (hdepth : 0 < t.depth) (htopk : 0 < t.topk) {b : Build W} (maxNodes : Nat)
    (h : Searching t b) (hstop : b.heap = [] ∧ b.nodes.length ≤ maxNodes ∨ b.nodes.length = maxNodes) :
    BestNodes t maxNodes b.nodes := by
  have hs := h.grown.searched
  have hset : {p | Below (succs t) [0] p} = {p | Candidate t p} :=
    Set.ext fun p => ⟨candidate_of_below hdepth htopk, below_of_candidate⟩
  refine ⟨fun n hn => ?_, fun n hn => ?_, fun i n hi => ?_, fun r r' up hmem hlt => siblings_taken hs hmem hlt,
    (nodup_append.1 hs.nodup).1, ?_, fun p hp hnot n hn => ?_, ?_⟩
  · exact candidate_of_below hdepth htopk (hs.below _ (mem_append_left _ (mem_map_of_mem hn)))
  · obtain ⟨i, hi⟩ := mem_iff_getElem?.1 hn
    have hok := h.grown.nodes hi
    obtain ⟨r, hpath, htoken⟩ := hok.token
    exact ⟨r, hpath, htoken, hok.depth, h.weighed.nodes n hn⟩
  · rcases (h.grown.nodes hi).parent with hroot | ⟨p, m, hp, hm, hpath⟩
    · exact .inl hroot
    · rw [getElem?_take] at hm
      split at hm
      · exact .inr ⟨p, m, ‹_›, hp, hm, hpath⟩
      · cases hm
  · have hcount := hs.length_done (n := maxNodes) (hset ▸ finite_candidates t) (by simpa using hstop)
    rwa [length_map, hset] at hcount
  · rw [h.weighed.nodes n hn]
    exact h.ranked.least hs (weight_succs ht) (below_of_candidate hp) hnot _ (mem_map_of_mem hn)
  · refine (pairwise_map.1 h.ranked.sorted).imp_of_mem fun {a c} ha hc hle => ?_
    rw [h.weighed.nodes a ha, h.weighed.nodes c hc]
    exact hle

/-- **The best-first draft tree is optimal.**  The builder panics only on tables without columns; otherwise, without a
cutoff, its nodes are the heaviest candidates in order, and a cutoff with a floor cuts that sequence at the first node below
the cutoff from the floor on. -/
theorem build_is_optimal (ht : Ordered t) {maxNodes : Nat} (hmax : 1 ≤ maxNodes) :
    (∀ minNodes cutoff, buildDdtreeTreeBounded logwHeap t minNodes maxNodes cutoff = none ↔ 0 < t.depth ∧ t.topk = 0) ∧
    ∀ minNodes tree, buildDdtreeTreeBounded logwHeap t minNodes maxNodes none = some tree →
      BestNodes t maxNodes tree.nodes ∧
      ∀ floor c cutTree, buildDdtreeTreeBounded logwHeap t floor maxNodes (some c) = some cutTree →
        ∃ k, cutTree.nodes = tree.nodes.take k ∧
          (∀ i n, i < k → floor ≤ i → tree.nodes[i]? = some n → ¬ n.logw < c) ∧
          ∀ n, tree.nodes[k]? = some n → floor ≤ k ∧ n.logw < c := by
  rcases Nat.eq_zero_or_pos t.depth with hdepth | hdepth
  · have hbuild : ∀ minNodes cutoff, buildDdtreeTreeBounded logwHeap t minNodes maxNodes cutoff =
        some ⟨[], [[true]], fun _ _ => none⟩ := fun _ _ => if_pos (.inr hdepth)
    refine ⟨fun minNodes cutoff => ?_, fun minNodes tree htree => ?_⟩
    · rw [hbuild]
      simp [hdepth]
    cases (hbuild _ _).symm.trans htree
    have hnone : {p | Candidate t p} = ∅ := Set.eq_empty_of_forall_notMem fun p hp =>
      hp.nonempty (length_eq_zero_iff.1 (Nat.le_zero.1 (hdepth ▸ hp.depth)))
    refine ⟨⟨by simp, by simp, by simp, by simp, nodup_nil, by rw [hnone]; simp, by simp, Pairwise.nil⟩,
      fun floor c cutTree hcut => ?_⟩
    cases (hbuild _ _).symm.trans hcut
    exact ⟨0, rfl, by simp, by simp⟩
  · have hbuild := fun minNodes cutoff => build_eq ht hmax hdepth logwHeap minNodes cutoff
    refine ⟨fun minNodes cutoff => ?_, fun minNodes tree htree => ?_⟩
    · rw [hbuild, Option.map_eq_none_iff, getElem?_eq_none_iff, ht.logProbs, Nat.le_zero, Nat.mul_eq_zero]
      omega
    rw [hbuild] at htree
    obtain ⟨first, hfirst, rfl⟩ := Option.map_eq_some_iff.1 htree
    have htopk : 0 < t.topk := by
      have := lt_of_getElem? hfirst
      rw [ht.logProbs] at this
      exact Nat.pos_of_mul_pos_left this
    have hlp : first = t.logProb 0 0 := by
      unfold Tables.logProb
      rw [Nat.zero_mul, getD_eq_getElem?_getD, hfirst]
      rfl
    refine ⟨bestNodes_of_searching ht hdepth htopk maxNodes (searching_grow ht minNodes maxNodes none hlp) ?_,
      fun floor c cutTree hcut => ?_⟩
    · simpa [seed, Build.push] using grow_stop logwHeap minNodes maxNodes (seed first)
    · rw [hbuild, hfirst] at hcut
      obtain rfl := Option.some.inj hcut
      obtain ⟨k, -, hres, hbefore, hend⟩ := grow_cut logwHeap minNodes floor (some c) maxNodes (seed first)
      refine ⟨k, hres, fun i n hi hfloor hn => ?_, fun n hn => ?_⟩
      · exact of_decide_eq_false (hbefore i n (Nat.zero_le _) hi hfloor hn)
      · exact ⟨(hend n hn).1, of_decide_eq_true (hend n hn).2⟩

end Weights

theorem build_is_optimal_twoByTwo : ∃ tree : DdTree Int,
    buildDdtreeTreeBounded logwHeap twoByTwo 0 3 none = some tree ∧ BestNodes twoByTwo 3 tree.nodes := by
  have ht : Ordered twoByTwo :=
    ⟨rfl, rfl, by decide, fun x hx => by rcases hx with _ | ⟨_, _ | ⟨_, _ | ⟨_, _ | ⟨_, hx⟩⟩⟩⟩ <;> first | decide | cases hx⟩
  let tree : DdTree Int := (buildDdtreeTreeBounded logwHeap twoByTwo 0 3 none).getD ⟨[], [], fun _ _ => none⟩
  have hbuild : buildDdtreeTreeBounded logwHeap twoByTwo 0 3 none = some tree := rfl
  exact ⟨tree, hbuild, ((build_is_optimal ht (by decide)).2 0 tree hbuild).1⟩

end Hipfire.Draft

import Hipfire.Draft.Grown
/-!
# Verify — the greedy walk through the draft tree is plain decoding

The walk stands on a slot whose tokens are what the target would have decoded so far; the target's answer there is the
next decoded token, and the child map leads to the child with that token if the tree has one.  When rows hold distinct
tokens, the tokens of a candidate determine it, so at the end of the walk no candidate of the tree goes on.
-/
namespace Hipfire.Draft

open List

variable {W : Type}

/-- The tokens of a candidate, from the root on. -/
def tokensOf (t : Tables W) : List Nat → List Nat
  | [] => []
  | r :: up => tokensOf t up ++ [t.token up.length r]

theorem length_tokensOf (t : Tables W) : ∀ p : List Nat, (tokensOf t p).length = p.length
  | [] => rfl
  | _ :: up => by rw [tokensOf, length_append, length_tokensOf t up]; rfl

/-- Each row of the table holds distinct tokens. -/
def RowsDistinct (t : Tables W) : Prop :=
  ∀ d < t.depth, ∀ r < t.topk, ∀ r' < t.topk, t.token d r = t.token d r' → r = r'

/-- **The tokens of a candidate determine it.** -/
theorem tokensOf_inj {t : Tables W} (hrows : RowsDistinct t) : ∀ {p p' : List Nat}, p.length ≤ t.depth →
    (∀ r ∈ p, r < t.topk) → (∀ r ∈ p', r < t.topk) → tokensOf t p = tokensOf t p' → p = p'
  | [], p', _, _, _, h => by
    have := congrArg length h
    rw [length_tokensOf, length_tokensOf] at this
    exact (length_eq_zero_iff.1 this.symm).symm
  | r :: up, [], _, _, _, h => by
    have := congrArg length h
    rw [length_tokensOf, length_tokensOf] at this
    cases this
  | r :: up, r' :: up', hd, hr, hr', h => by
    obtain ⟨hup, htok⟩ := append_inj' h rfl
    obtain rfl := tokensOf_inj hrows (Nat.le_of_succ_le hd) (forall_mem_cons.1 hr).2
      (forall_mem_cons.1 hr').2 hup
    rw [hrows _ hd r (hr r mem_cons_self) r' (hr' r' mem_cons_self) (singleton_inj.1 htok)]

/-- The first tokens of decoding with `f` from `start`. -/
def continuation (f : List Nat → Nat) (start : List Nat) : Nat → List Nat
  | 0 => []
  | n + 1 => continuation f start n ++ [f (start ++ continuation f start n)]

theorem length_continuation (f : List Nat → Nat) (start : List Nat) : ∀ n, (continuation f start n).length = n
  | 0 => rfl
  | n + 1 => by rw [continuation, length_append, length_continuation f start n]; rfl

/-! ## Slots of a grown tree -/

section Slots

variable {t : Tables W} {b : Build W} {tree : DdTree W} {s s' : Nat}

theorem Grown.slotPath_inj (h : Grown t b) (hs : s ≤ b.nodes.length) (hs' : s' ≤ b.nodes.length)
    (heq : slotPath b.nodes s = slotPath b.nodes s') : s = s' := by
  have hpos : ∀ {i}, i < b.nodes.length → slotPath b.nodes (i + 1) ≠ [] := fun hi => by
    obtain ⟨r, hr, -⟩ := h.slot (getElem?_eq_getElem hi)
    rw [hr]
    exact cons_ne_nil _ _
  cases s with
  | zero =>
    cases s' with
    | zero => rfl
    | succ j => exact absurd heq.symm (hpos hs')
  | succ i =>
    cases s' with
    | zero => exact absurd heq (hpos hs)
    | succ j =>
      have hnodup := (nodup_append.1 h.searched.nodup).1
      have hi : i < (b.nodes.map DdNode.path).length := by rw [length_map]; exact hs
      congr 1
      refine (getElem?_inj hi hnodup).1 ?_
      rw [slotPath, slotPath, getElem?_eq_getElem hs, getElem?_eq_getElem hs'] at heq
      rw [getElem?_map, getElem?_map, getElem?_eq_getElem hs, getElem?_eq_getElem hs']
      exact congrArg some heq

theorem Grown.tokensOf_slot (h : Grown t b) {i : Nat} {n : DdNode W} (hi : b.nodes[i]? = some n) :
    tokensOf t (slotPath b.nodes (i + 1)) = tokensOf t (slotPath b.nodes (parentSlot n.parentIndex)) ++ [n.token] := by
  obtain ⟨r, hpath, htoken, -⟩ := h.slot hi
  rw [hpath, tokensOf, htoken]

/-- The tokens along a slot's chain are those of its candidate. -/
theorem Grown.tokensAt_chain (h : Grown t b) (hnodes : tree.nodes = b.nodes) (s : Nat) (hs : s ≤ b.nodes.length) :
    tree.tokensAt (slotChain b.nodes s) = tokensOf t (slotPath b.nodes s) := by
  refine Rooted.slots h.rooted rfl (fun hi ih => ?_) s hs
  unfold DdTree.tokensAt at ih ⊢
  rw [(slotChain_succ h.rooted hi).2, h.tokensOf_slot hi, filterMap_append, ih, hnodes]
  simp [hi]

theorem Grown.length_chain (h : Grown t b) (s : Nat) (hs : s ≤ b.nodes.length) :
    (slotChain b.nodes s).length = (slotPath b.nodes s).length := by
  refine Rooted.slots h.rooted rfl (fun hi ih => ?_) s hs
  obtain ⟨r, hpath, -⟩ := h.slot hi
  rw [(slotChain_succ h.rooted hi).2, hpath, length_append, ih]
  rfl

/-! ## The walk -/

variable {f : List Nat → Nat} {start posterior : List Nat}

/-- The tokens of the slot's candidate are what `f` decodes. -/
def Decoded (t : Tables W) (b : Build W) (f : List Nat → Nat) (start : List Nat) (s : Nat) : Prop :=
  tokensOf t (slotPath b.nodes s) = continuation f start (slotPath b.nodes s).length

/-- The target's answer at a slot. -/
def answer (t : Tables W) (b : Build W) (f : List Nat → Nat) (start : List Nat) (s : Nat) : Nat :=
  f (start ++ tokensOf t (slotPath b.nodes s))

theorem Decoded.next (h : Decoded t b f start s) :
    tokensOf t (slotPath b.nodes s) ++ [answer t b f start s] = continuation f start ((slotPath b.nodes s).length + 1) := by
  unfold answer
  rw [continuation, ← h]

theorem Decoded.child (hg : Grown t b) {i : Nat} {n : DdNode W} (hi : b.nodes[i]? = some n)
    (h : Decoded t b f start (parentSlot n.parentIndex)) (htoken : n.token = answer t b f start (parentSlot n.parentIndex)) :
    Decoded t b f start (i + 1) := by
  obtain ⟨r, hpath, -⟩ := hg.slot hi
  unfold Decoded
  rw [hg.tokensOf_slot hi, htoken, h.next, hpath]
  rfl

/-- **The walk ends on a decoded slot without a child for the target's answer.** -/
theorem followLoop_spec (tree : DdTree W) (h : Grown t b) (hmaps : tree.childMaps = b.childMaps)
    (hpost : ∀ s ≤ b.nodes.length, posterior[s]? = some (answer t b f start s)) :
    ∀ (fuel : Nat) {s : Nat}, s ≤ b.nodes.length → b.nodes.length < fuel + s → Decoded t b f start s →
    ∃ s' ≤ b.nodes.length, Decoded t b f start s' ∧ b.childMaps s' (answer t b f start s') = none ∧
      followLoop tree posterior fuel s (answer t b f start s) (slotChain b.nodes s)
        = some (slotChain b.nodes s', answer t b f start s')
  | 0, s, hs, hfuel, _ => by omega
  | fuel + 1, s, hs, hfuel, hdec => by
    unfold followLoop
    rw [hmaps]
    cases hchild : b.childMaps s (answer t b f start s) with
    | none => exact ⟨s, hs, hdec, hchild, rfl⟩
    | some c =>
      obtain ⟨n, hc, hslot, htoken⟩ := h.registered hchild
      have hlt : c < b.nodes.length := lt_of_getElem? hc
      obtain ⟨hle, hchain⟩ := slotChain_succ h.rooted hc
      subst hslot
      dsimp only
      rw [hpost (c + 1) hlt, ← hchain]
      exact followLoop_spec tree h hmaps hpost fuel hlt (by omega) (hdec.child h hc htoken)

/-- A decoded slot's ancestors are decoded: there is one of every smaller depth. -/
theorem Decoded.ancestor (h : Grown t b) {k : Nat} : ∀ {s : Nat}, s ≤ b.nodes.length → Decoded t b f start s →
    k ≤ (slotPath b.nodes s).length → ∃ s' ≤ b.nodes.length, Decoded t b f start s' ∧ (slotPath b.nodes s').length = k := by
  intro s
  induction s using Nat.strongRecOn with
  | ind s ih =>
    intro hs hdec hk
    by_cases heq : (slotPath b.nodes s).length = k
    · exact ⟨s, hs, hdec, heq⟩
    cases s with
    | zero => exact absurd (Nat.le_antisymm (Nat.zero_le k) hk) heq
    | succ i =>
      have hi := getElem?_eq_getElem hs
      obtain ⟨hle, -⟩ := slotChain_succ h.rooted hi
      obtain ⟨r, hpath, -⟩ := h.slot hi
      rw [hpath, length_cons] at hk heq
      refine ih _ (Nat.lt_succ_of_le hle) (by omega) ?_ (by omega)
      unfold Decoded at hdec
      rw [h.tokensOf_slot hi, hpath, length_cons, continuation] at hdec
      exact (append_inj' hdec rfl).1

/-- **Where the walk ends, no candidate of the tree goes on decoding.** -/
theorem Decoded.length_le (h : Grown t b) (hrows : RowsDistinct t) (hcand : ∀ n ∈ b.nodes, Candidate t n.path)
    (hs : s ≤ b.nodes.length) (hdec : Decoded t b f start s) (hend : b.childMaps s (answer t b f start s) = none)
    (hs' : s' ≤ b.nodes.length) (hdec' : Decoded t b f start s') :
    (slotPath b.nodes s').length ≤ (slotPath b.nodes s).length := by
  have hrank : ∀ {x}, x ≤ b.nodes.length → (slotPath b.nodes x).length ≤ t.depth ∧ ∀ r ∈ slotPath b.nodes x, r < t.topk := by
    intro x hx
    cases x with
    | zero => exact ⟨Nat.zero_le _, nofun⟩
    | succ i =>
      have := hcand _ (getElem_mem hx)
      rw [slotPath, getElem?_eq_getElem hx]
      exact ⟨this.depth, this.rank⟩
  by_contra hlong
  obtain ⟨y, hy, hydec, hylen⟩ := hdec'.ancestor h hs' (not_le.1 hlong)
  cases y with
  | zero => cases hylen
  | succ i =>
    have hi := getElem?_eq_getElem hy
    obtain ⟨hle, -⟩ := slotChain_succ h.rooted hi
    obtain ⟨r, hpath, -⟩ := h.slot hi
    rw [hpath, length_cons, Nat.succ_inj] at hylen
    -- the parent has the tokens of `s`, so it is `s`
    unfold Decoded at hydec
    rw [h.tokensOf_slot hi, hpath, length_cons, hylen, ← hdec.next] at hydec
    obtain ⟨hup, htok⟩ := append_inj' hydec rfl
    have hslot : parentSlot b.nodes[i].parentIndex = s := h.slotPath_inj (by omega) hs
      (tokensOf_inj hrows (hrank (by omega)).1 (hrank (by omega)).2 (hrank hs).2 hup)
    obtain ⟨c, hc⟩ := h.found _ (getElem_mem hy)
    rw [hslot, singleton_inj.1 htok, hend] at hc
    cases hc

end Slots

/-- **Greedy tree verification is plain decoding**: the accepted root path and the bonus token are the first tokens that
`f` decodes, and no longer root path of the tree is. -/
theorem follow_is_decoding [Zero W] [Add W] [Sub W] [Neg W] [LT W] [DecidableLT W] {heap : Heap (HeapEntry W)}
    {t : Tables W} {minNodes maxNodes : Nat} {cutoff : Option W} {tree : DdTree W}
    (hbuild : buildDdtreeTreeBounded heap t minNodes maxNodes cutoff = some tree) (hrows : RowsDistinct t)
    (f : List Nat → Nat) (start posterior : List Nat) (hroot : posterior[0]? = some (f start))
    (hnodes : ∀ i < tree.nodes.length, posterior[i + 1]? = some (f (start ++ tree.tokensAt (tree.ancestorsOf i)))) :
    ∃ accepted bonus, followVerifiedTree tree posterior = some (accepted, bonus) ∧
      (accepted = [] ∨ ∃ i < tree.nodes.length, accepted = tree.ancestorsOf i) ∧
      tree.tokensAt accepted ++ [bonus] = continuation f start (accepted.length + 1) ∧
      ∀ i < tree.nodes.length, ∀ k, tree.tokensAt (tree.ancestorsOf i) = continuation f start k → k ≤ accepted.length := by
  obtain ⟨b, hg, rfl, hcand⟩ := built hbuild
  have hchain : ∀ i, DdTree.ancestorsOf ⟨b.nodes, visibilityRows (1 + b.nodes.length) b.nodes, b.childMaps⟩ i
      = slotChain b.nodes (i + 1) := fun i => rfl
  have htokens : ∀ s ≤ b.nodes.length, DdTree.tokensAt ⟨b.nodes, visibilityRows (1 + b.nodes.length) b.nodes, b.childMaps⟩
      (slotChain b.nodes s) = tokensOf t (slotPath b.nodes s) := hg.tokensAt_chain rfl
  have hpost : ∀ s ≤ b.nodes.length, posterior[s]? = some (answer t b f start s) := by
    intro s hs
    cases s with
    | zero =>
      unfold answer
      rw [hroot, slotPath, tokensOf, append_nil]
    | succ i =>
      unfold answer
      rw [hnodes i hs, hchain, htokens _ hs]
  obtain ⟨s, hs, hdec, hend, hwalk⟩ := followLoop_spec ⟨b.nodes, _, b.childMaps⟩ hg rfl hpost
    (1 + b.nodes.length) (Nat.zero_le _) (by omega) rfl
  refine ⟨slotChain b.nodes s, answer t b f start s, ?_, ?_, ?_, fun i hi k hk => ?_⟩
  · unfold followVerifiedTree
    rw [hpost 0 (Nat.zero_le _)]
    exact hwalk
  · cases s with
    | zero => exact .inl rfl
    | succ i => exact .inr ⟨i, hs, rfl⟩
  · rw [htokens s hs, hdec.next, hg.length_chain s hs]
  · rw [hchain, htokens _ hi] at hk
    have hlen : (slotPath b.nodes (i + 1)).length = k := by
      rw [← length_tokensOf t, hk, length_continuation]
    rw [hg.length_chain s hs, ← hlen]
    exact hdec.length_le hg hrows hcand hs hend hi (by rw [Decoded, hlen]; exact hk)

/-- Decodes 5, 8 and then only 5. -/
def fiveEight (l : List Nat) : Nat := if l = [5] then 8 else 5

theorem follow_is_decoding_twoByTwo : ∃ tree : DdTree Int, buildDdtreeTreeBounded logwHeap twoByTwo 0 3 none = some tree ∧
    ∃ accepted bonus, followVerifiedTree tree [5, 8, 5, 5] = some (accepted, bonus) ∧
      tree.tokensAt accepted ++ [bonus] = continuation fiveEight [] (accepted.length + 1) := by
  let tree : DdTree Int := (buildDdtreeTreeBounded logwHeap twoByTwo 0 3 none).getD ⟨[], [], fun _ _ => none⟩
  have hbuild : buildDdtreeTreeBounded logwHeap twoByTwo 0 3 none = some tree := rfl
  obtain ⟨accepted, bonus, hwalk, -, htokens, -⟩ := follow_is_decoding hbuild (by unfold RowsDistinct; decide) fiveEight []
    [5, 8, 5, 5] rfl (by decide)
  exact ⟨tree, hbuild, accepted, bonus, hwalk, htokens⟩

end Hipfire.Draft

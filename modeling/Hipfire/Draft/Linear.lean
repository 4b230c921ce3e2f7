import Hipfire.Draft.Grown
/-!
# Linear — the linearised tree encodes ancestry

A visibility row is its parent's row and the slot itself, which is how a slot's chain comes out of its parent's chain, so
row and chain agree slot by slot.  The chain rises, so it is also the order in which the visible slots stand in the block.
-/
namespace Hipfire.Draft

open List

variable {W : Type}

/-- `k` steps along `parent_indices` from a slot; nothing once the sentinel is met. -/
def climb (parents : List Int) : Nat → Nat → Option Nat
  | 0, s => some s
  | k + 1, s =>
    match parents[s]? with
    | none => none
    | some p => if p < 0 then none else climb parents k p.toNat

/-- The slots on the chain of a slot, from the root to the slot. -/
def chainSlots (nodes : List (DdNode W)) (s : Nat) : List Nat := 0 :: (slotChain nodes s).map (· + 1)

section Chains

variable {nodes : List (DdNode W)} (hr : Rooted nodes)
include hr

theorem chainSlots_succ {i : Nat} {n : DdNode W} (hi : nodes[i]? = some n) :
    chainSlots nodes (i + 1) = chainSlots nodes (parentSlot n.parentIndex) ++ [i + 1] := by
  unfold chainSlots
  rw [(slotChain_succ hr hi).2, map_append]
  rfl

theorem chainSlots_rises (s : Nat) (hs : s ≤ nodes.length) :
    (chainSlots nodes s).Pairwise (· < ·) ∧ ∀ j ∈ chainSlots nodes s, j ≤ s := by
  refine Rooted.slots hr ⟨pairwise_singleton _ _, forall_mem_singleton.2 le_rfl⟩ (fun hi ⟨hsorted, hbound⟩ => ?_) s hs
  rw [chainSlots_succ hr hi]
  have hlt := fun j hj => Nat.lt_succ_of_le ((hbound j hj).trans (slotChain_succ hr hi).1)
  exact ⟨pairwise_append.2 ⟨hsorted, pairwise_singleton _ _, fun a ha => forall_mem_singleton.2 (hlt a ha)⟩,
    forall_mem_append.2 ⟨fun j hj => (hlt j hj).le, forall_mem_singleton.2 le_rfl⟩⟩

/-- **Following the parents from a slot visits its chain.** -/
theorem climb_iff {parents : List Int} (hroot : parents[0]? = some (-1))
    (hparents : ∀ {i n}, nodes[i]? = some n → parents[i + 1]? = some ((parentSlot n.parentIndex : Nat) : Int))
    (s : Nat) (hs : s ≤ nodes.length) (j : Nat) : (∃ k, climb parents k s = some j) ↔ j ∈ chainSlots nodes s := by
  have hzero : ∀ s, (∃ k, climb parents k s = some j) ↔ s = j ∨ ∃ k, climb parents (k + 1) s = some j := fun s => by
    rw [← Nat.or_exists_add_one, climb, Option.some.injEq]
  refine Rooted.slots hr ?_ (fun {i n} hi ih => ?_) s hs
  · have hstop : ¬ ∃ k, climb parents (k + 1) 0 = some j := by
      rintro ⟨k, hk⟩
      rw [climb, hroot] at hk
      cases hk
    rw [hzero, or_iff_left hstop]
    exact eq_comm.trans mem_singleton.symm
  · have hstep : ∀ k, climb parents (k + 1) (i + 1) = climb parents k (parentSlot n.parentIndex) := fun k => by
      rw [climb, hparents hi]
      exact if_neg (by omega)
    simp only [hzero (i + 1), hstep]
    rw [ih, chainSlots_succ hr hi, mem_append, mem_singleton]
    exact or_comm.trans (or_congr_right eq_comm)

/-! ## Visibility -/

theorem visibilityRows_take {k : Nat} (hk : k ≤ nodes.length) :
    (visibilityRows (1 + nodes.length) (nodes.take k)).length = k + 1 ∧
    ∀ s ≤ k, (visibilityRows (1 + nodes.length) (nodes.take k))[s]? =
      some ((range (1 + nodes.length)).map fun j => decide (j ∈ chainSlots nodes s)) := by
  induction k with
  | zero =>
    refine ⟨rfl, fun s hs => ?_⟩
    obtain rfl := Nat.le_zero.1 hs
    have hmem : ∀ j, decide (j ∈ chainSlots nodes 0) = decide (j = 0) := fun j => decide_eq_decide.2 mem_singleton
    simp only [hmem]
    rfl
  | succ k ih =>
    obtain ⟨hlen, hrows⟩ := ih (by omega)
    have hi := getElem?_eq_getElem hk
    have hle := (slotChain_succ hr hi).1
    have hnext : visibilityRows (1 + nodes.length) (nodes.take (k + 1)) =
        visibilityRows (1 + nodes.length) (nodes.take k) ++
          [visibilityRow (1 + nodes.length) (visibilityRows (1 + nodes.length) (nodes.take k)) nodes[k]] := by
      rw [take_add_one, hi]
      exact foldl_append
    rw [hnext]
    refine ⟨by rw [length_append, hlen]; rfl, fun s hs => ?_⟩
    rcases Nat.lt_or_ge s (k + 1) with hlt | hge
    · rw [getElem?_append_left (by omega), hrows s (by omega)]
    obtain rfl : s = k + 1 := by omega
    rw [← hlen, getElem?_concat_length, hlen]
    unfold visibilityRow
    rw [Option.some.injEq, hlen]
    refine map_congr_left fun j hj => ?_
    have hup := (chainSlots_rises hr _ (hle.trans (by omega))).2 j
    have hrow : (visibilityRows (1 + nodes.length) (nodes.take k)).getD (parentSlot nodes[k].parentIndex) [] =
        (range (1 + nodes.length)).map fun j => decide (j ∈ chainSlots nodes (parentSlot nodes[k].parentIndex)) := by
      rw [getD_eq_getElem?_getD, hrows _ hle, Option.getD_some]
    rw [hrow, getD_eq_getElem?_getD, getElem?_map, getElem?_range (mem_range.1 hj), Option.map_some,
      Option.getD_some, chainSlots_succ hr hi]
    simp only [mem_append, mem_singleton]
    split
    · exact decide_eq_decide.2 (or_iff_left (by omega)).symm
    · exact decide_eq_decide.2 (or_iff_right fun hm => by have := hup hm; omega).symm

theorem visibilityRows_eq (s : Nat) (hs : s ≤ nodes.length) : (visibilityRows (1 + nodes.length) nodes)[s]? =
      some ((range (1 + nodes.length)).map fun j => decide (j ∈ chainSlots nodes s)) := by
  have := (visibilityRows_take hr (Nat.le_refl nodes.length)).2 s hs
  rwa [take_length] at this

end Chains

theorem getElem?_flatMap_row {α β : Type} (f : α → List β) {len : Nat} : ∀ {rows : List α} {s : Nat} {row : α} {j : Nat},
    (∀ r ∈ rows, (f r).length = len) → rows[s]? = some row → j < len → (rows.flatMap f)[s * len + j]? = (f row)[j]?
  | r :: rows, 0, row, j, hlen, hrow, hj => by
    obtain rfl : r = row := Option.some.inj hrow
    rw [flatMap_cons, Nat.zero_mul, Nat.zero_add,
      getElem?_append_left (by rw [hlen r mem_cons_self]; exact hj)]
  | r :: rows, s + 1, row, j, hlen, hrow, hj => by
    have hr := hlen r mem_cons_self
    rw [flatMap_cons, Nat.succ_mul, getElem?_append_right (by omega), hr,
      show s * len + len + j - len = s * len + j by omega]
    exact getElem?_flatMap_row f (forall_mem_cons.1 hlen).2 hrow hj

/-- The tokens that a slot sees, in slot order. -/
def Linearized.visibleTokens (out : Linearized) (s : Nat) : List Nat :=
  (range out.tokens.length).filterMap fun j =>
    if out.maskBlock[s * out.tokens.length + j]? = some .zero then out.tokens[j]? else none

/-- What the block says about ancestry. -/
structure EncodesAncestry (tree : DdTree W) (seedToken basePos : Nat) (out : Linearized) : Prop where
  tokens : out.tokens.length = 1 + tree.nodes.length
  root : out.parentIndices[0]? = some (-1)
  parent : ∀ s, 0 < s → s ≤ tree.nodes.length → ∃ p < s, out.parentIndices[s]? = some (p : Int)
  steps : ∀ s ≤ tree.nodes.length, ∃ k, climb out.parentIndices k s = some 0 ∧
    out.positions[s]? = some (asI32 (basePos + k)) ∧
    (basePos + k < 2147483648 → ∀ pos, out.positions[s]? = some pos → pos - basePos = k)
  mask : ∀ s ≤ tree.nodes.length, ∀ j ≤ tree.nodes.length,
    (out.maskBlock[s * (1 + tree.nodes.length) + j]? = some .zero ↔ ∃ k, climb out.parentIndices k s = some j) ∧
    (out.maskBlock[s * (1 + tree.nodes.length) + j]? = some .negInfinity ↔ ¬ ∃ k, climb out.parentIndices k s = some j)
  seed : out.visibleTokens 0 = [seedToken]
  visible : ∀ i < tree.nodes.length, out.visibleTokens (i + 1) = seedToken :: tree.tokensAt (tree.ancestorsOf i)

section Block

variable {t : Tables W} {b : Build W} {seedToken basePos : Nat}

/-- The tree of a builder, laid out. -/
def Build.block (b : Build W) (seedToken basePos : Nat) : Linearized :=
  linearizeTreeWithParents ⟨b.nodes, visibilityRows (1 + b.nodes.length) b.nodes, b.childMaps⟩ seedToken basePos

theorem block_parents {i : Nat} {n : DdNode W} (hi : b.nodes[i]? = some n) :
    (b.block seedToken basePos).parentIndices[i + 1]? = some ((parentSlot n.parentIndex : Nat) : Int) := by
  show (b.nodes.map fun n => _)[i]? = _
  rw [getElem?_map, hi, Option.map_some, Option.some.injEq]
  unfold parentSlot
  split
  · rfl
  · omega

theorem block_climb (h : Grown t b) {s : Nat} (hs : s ≤ b.nodes.length) (j : Nat) :
    (∃ k, climb (b.block seedToken basePos).parentIndices k s = some j) ↔ j ∈ chainSlots b.nodes s :=
  climb_iff h.rooted rfl block_parents s hs j

theorem block_mask (h : Grown t b) {s j : Nat} (hs : s ≤ b.nodes.length) (hj : j ≤ b.nodes.length) :
    (b.block seedToken basePos).maskBlock[s * (1 + b.nodes.length) + j]? =
      some (if j ∈ chainSlots b.nodes s then .zero else .negInfinity) := by
  have hrow := visibilityRows_eq h.rooted s hs
  refine (getElem?_flatMap_row _ (fun r hr => ?_) hrow (by omega)).trans ?_
  · obtain ⟨s', hs', rfl⟩ := mem_iff_getElem.1 hr
    have hlen := (visibilityRows_take h.rooted (Nat.le_refl b.nodes.length)).1
    rw [take_length] at hlen
    have hrow' := visibilityRows_eq h.rooted s' (by omega)
    rw [getElem?_eq_getElem hs', Option.some.injEq] at hrow'
    rw [hrow']
    simp
  · rw [getElem?_map, getElem?_map, getElem?_range (by omega)]
    simp

/-- Reaching the root takes as many steps as the slot is deep. -/
theorem block_climb_root (h : Grown t b) (s : Nat) (hs : s ≤ b.nodes.length) :
    climb (b.block seedToken basePos).parentIndices (slotPath b.nodes s).length s = some 0 := by
  refine Rooted.slots h.rooted rfl (fun hi ih => ?_) s hs
  obtain ⟨r, hpath, -⟩ := h.slot hi
  rw [hpath, length_cons, climb, block_parents hi]
  exact (if_neg (by omega)).trans ih

theorem block_position (h : Grown t b) {s : Nat} (hs : s ≤ b.nodes.length) :
    (b.block seedToken basePos).positions[s]? = some (asI32 (basePos + (slotPath b.nodes s).length)) := by
  cases s with
  | zero => exact congrArg (fun x : Int => some (asI32 x)) (Int.add_zero _).symm
  | succ i =>
    have hi := getElem?_eq_getElem hs
    obtain ⟨r, hpath, -, hdepth⟩ := h.slot hi
    show (b.nodes.map fun n => _)[i]? = _
    rw [getElem?_map, hi, Option.map_some, Option.some.injEq, hdepth, hpath, length_cons]
    unfold asI32
    rw [Int.bmod_add_bmod, Int.add_bmod_bmod]

theorem block_visible (h : Grown t b) {s : Nat} (hs : s ≤ b.nodes.length) :
    (b.block seedToken basePos).visibleTokens s = seedToken ::
      (slotChain b.nodes s).filterMap fun i => b.nodes[i]?.map DdNode.token := by
  have hlen : (b.block seedToken basePos).tokens.length = 1 + b.nodes.length := by
    show (_ :: b.nodes.map DdNode.token).length = _
    rw [length_cons, length_map, Nat.add_comm]
  obtain ⟨hsorted, hbound⟩ := chainSlots_rises h.rooted s hs
  have hchain : (range (1 + b.nodes.length)).filter (fun j => decide (j ∈ chainSlots b.nodes s)) =
      chainSlots b.nodes s := by
    refine Pairwise.eq_of_mem_iff (pairwise_lt_range.filter _) hsorted fun j => ?_
    rw [mem_filter, decide_eq_true_eq, mem_range]
    exact ⟨And.right, fun hj => ⟨by have := hbound j hj; omega, hj⟩⟩
  have hread : (b.block seedToken basePos).visibleTokens s =
      (chainSlots b.nodes s).filterMap fun j => (b.block seedToken basePos).tokens[j]? := by
    unfold Linearized.visibleTokens
    rw [hlen, ← hchain, filterMap_filter]
    refine filterMap_congr fun j hj => ?_
    rw [block_mask h hs (by have := mem_range.1 hj; omega)]
    by_cases hmem : j ∈ chainSlots b.nodes s <;> simp [hmem]
  have hseed : (b.block seedToken basePos).tokens[0]? = some seedToken := rfl
  rw [hread, chainSlots, filterMap_cons, hseed, filterMap_map]
  exact congrArg (seedToken :: ·) (filterMap_congr fun i _ => getElem?_map ..)

theorem block_encodes (h : Grown t b) :
    EncodesAncestry ⟨b.nodes, visibilityRows (1 + b.nodes.length) b.nodes, b.childMaps⟩ seedToken basePos
      (b.block seedToken basePos) := by
  refine ⟨?_, rfl, fun s hpos hs => ?_, fun s hs => ?_, fun s hs j hj => ?_, block_visible h (Nat.zero_le _),
    fun i hi => block_visible h hi⟩
  · show (_ :: b.nodes.map DdNode.token).length = _
    rw [length_cons, length_map, Nat.add_comm]
  · obtain ⟨i, rfl⟩ : ∃ i, s = i + 1 := ⟨s - 1, by omega⟩
    have hi := getElem?_eq_getElem hs
    exact ⟨_, Nat.lt_succ_of_le (slotChain_succ h.rooted hi).1, block_parents hi⟩
  · refine ⟨_, block_climb_root h s hs, block_position h hs, fun hlt pos hpos => ?_⟩
    rw [block_position h hs, Option.some.injEq] at hpos
    rw [← hpos, ← Int.natCast_add, asI32_of_lt hlt]
    omega
  · show (_[_]? = _ ↔ _) ∧ (_[_]? = _ ↔ _)
    rw [block_mask h hs hj, block_climb h hs]
    by_cases hmem : j ∈ chainSlots b.nodes s <;> simp [hmem]

end Block

/-- **The linearised tree encodes ancestry exactly.** -/
theorem linearized_encodes_ancestry [Zero W] [Add W] [Sub W] [Neg W] [LT W] [DecidableLT W] {heap : Heap (HeapEntry W)}
    {t : Tables W} {minNodes maxNodes : Nat} {cutoff : Option W} {tree : DdTree W}
    (hbuild : buildDdtreeTreeBounded heap t minNodes maxNodes cutoff = some tree) (seedToken basePos : Nat) :
    EncodesAncestry tree seedToken basePos (linearizeTreeWithParents tree seedToken basePos) := by
  obtain ⟨b, hg, rfl, -⟩ := built hbuild
  exact block_encodes hg

theorem linearized_encodes_ancestry_twoByTwo : ∃ tree : DdTree Int,
    buildDdtreeTreeBounded logwHeap twoByTwo 0 3 none = some tree ∧
    EncodesAncestry tree 9 100 (linearizeTreeWithParents tree 9 100) := by
  let tree : DdTree Int := (buildDdtreeTreeBounded logwHeap twoByTwo 0 3 none).getD ⟨[], [], fun _ _ => none⟩
  have hbuild : buildDdtreeTreeBounded logwHeap twoByTwo 0 3 none = some tree := rfl
  exact ⟨tree, hbuild, linearized_encodes_ancestry hbuild 9 100⟩

end Hipfire.Draft

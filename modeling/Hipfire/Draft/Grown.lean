import Hipfire.Base.BestFirst
import Hipfire.Base.Lists
import Hipfire.Draft.Tree
/-!
# Grown — the shape of a tree under construction

A candidate is the list of its ranks, its own first and the root's child last.  Taking a candidate puts its next sibling and
its first child into the heap, which is a search through the tree `succs` of candidates, whatever order the heap takes
them in.  `Grown` says how the nodes, the heap and the child maps stand for that search; it holds after every turn of the
loop (`Grown.expand`), so of every tree that is built (`grown_of_build`).
-/
namespace Hipfire.Draft

open List Function

variable {W : Type}

/-- The candidates that taking one puts into the heap. -/
def succs (t : Tables W) : List Nat → List (List Nat)
  | [] => []
  | r :: up =>
    (if r + 1 < t.topk then [(r + 1) :: up] else []) ++ if up.length + 1 < t.depth then [0 :: r :: up] else []

variable {t : Tables W}

theorem mem_succs {a c : List Nat} : c ∈ succs t a ↔
    ∃ r up, a = r :: up ∧ (r + 1 < t.topk ∧ c = (r + 1) :: up ∨ up.length + 1 < t.depth ∧ c = 0 :: r :: up) := by
  cases a with
  | nil | cons r up => simp [succs]

theorem branching (t : Tables W) : Branching (succs t) [0] where
  fresh a h := by
    obtain ⟨r, up, -, ⟨-, h⟩ | ⟨-, h⟩⟩ := mem_succs.1 h <;> simp at h
  single := by
    intro a b c ha hb
    obtain ⟨r, up, rfl, ⟨-, rfl⟩ | ⟨-, rfl⟩⟩ := mem_succs.1 ha <;>
      obtain ⟨s, up', rfl, ⟨-, h⟩ | ⟨-, h⟩⟩ := mem_succs.1 hb <;> simp at h
    · rw [h.1, h.2]
    · rw [h.1, h.2]
  nodup a := by
    cases a with
    | nil => exact nodup_nil
    | cons r up => rw [succs]; split <;> split <;> simp

/-- A path of ranks inside the tables. -/
structure Candidate (t : Tables W) (p : List Nat) : Prop where
  nonempty : p ≠ []
  depth : p.length ≤ t.depth
  rank : ∀ r ∈ p, r < t.topk

theorem candidate_of_below (hdepth : 0 < t.depth) (htopk : 0 < t.topk) {p : List Nat}
    (h : Below (succs t) [0] p) : Candidate t p := by
  induction h with
  | refl => exact ⟨cons_ne_nil _ _, hdepth, forall_mem_singleton.2 htopk⟩
  | tail _ hstep ih =>
    obtain ⟨r, up, rfl, ⟨hr, rfl⟩ | ⟨hlen, rfl⟩⟩ := mem_succs.1 hstep
    · exact ⟨cons_ne_nil _ _, ih.depth, forall_mem_cons.2 ⟨hr, (forall_mem_cons.1 ih.rank).2⟩⟩
    · exact ⟨cons_ne_nil _ _, hlen, forall_mem_cons.2 ⟨htopk, ih.rank⟩⟩

/-! ## What the nodes and the heap stand for -/

/-- `parentIndex` names the candidate `up`. -/
def Parent (nodes : List (DdNode W)) (parentIndex : Int) (up : List Nat) : Prop :=
  up = [] ∧ parentIndex = -1 ∨ ∃ (i : Nat) (n : DdNode W), parentIndex = i ∧ nodes[i]? = some n ∧ n.path = up

theorem Parent.append {nodes : List (DdNode W)} {p : Int} {up : List Nat} (h : Parent nodes p up) (more : List (DdNode W)) :
    Parent (nodes ++ more) p up := by
  rcases h with h | ⟨i, n, hp, hi, hn⟩
  · exact .inl h
  · exact .inr ⟨i, n, hp, getElem?_append_of_some hi _, hn⟩

structure EntryOk (nodes : List (DdNode W)) (e : HeapEntry W) : Prop where
  path : e.path = e.rank :: e.path.tail
  depth : e.depth = e.path.length
  parent : Parent nodes e.parentIndex e.path.tail

/-- The node after the nodes `before`. -/
structure NodeOk (t : Tables W) (before : List (DdNode W)) (n : DdNode W) : Prop where
  token : ∃ r, n.path = r :: n.path.tail ∧ n.token = t.token n.path.tail.length r
  depth : n.depth = n.path.length
  parent : Parent before n.parentIndex n.path.tail

structure Grown (t : Tables W) (b : Build W) : Prop where
  searched : Searched (succs t) [0] (b.nodes.map DdNode.path) (b.heap.map HeapEntry.path)
  entries : ∀ e ∈ b.heap, EntryOk b.nodes e
  nodes : ∀ {i n}, b.nodes[i]? = some n → NodeOk t (b.nodes.take i) n
  registered : ∀ {slot token i}, b.childMaps slot token = some i →
    ∃ n, b.nodes[i]? = some n ∧ parentSlot n.parentIndex = slot ∧ n.token = token
  found : ∀ n ∈ b.nodes, ∃ i, b.childMaps (parentSlot n.parentIndex) n.token = some i

theorem grown_seed [Neg W] (t : Tables W) (first : W) : Grown t (seed first) where
  searched := Searched.start [0]
  entries e he := by
    rw [mem_singleton.1 he]
    exact ⟨rfl, rfl, .inl ⟨rfl, rfl⟩⟩
  nodes h := by cases h
  registered h := by cases h
  found n hn := by cases hn

section Builder

variable [Zero W] [Add W] [Sub W] [Neg W] {t : Tables W} {b : Build W} {e : HeapEntry W}

@[simp] theorem expand_nodes : (b.expand t e).nodes =
    b.nodes ++ [⟨t.token (e.depth - 1) e.rank, e.depth, e.parentIndex, e.logw, e.path⟩] := by
  unfold Build.expand Build.pushChild Build.pushSibling
  split <;> split <;> rfl

theorem expand_childMaps : (b.expand t e).childMaps = (b.place t e).childMaps := by
  unfold Build.expand Build.pushChild Build.pushSibling
  split <;> split <;> rfl

theorem expand_paths (hpath : e.path = e.rank :: e.path.tail) (hdepth : e.depth = e.path.length) :
    (b.expand t e).heap.map HeapEntry.path = b.heap.map HeapEntry.path ++ succs t e.path := by
  have hlen : e.path.tail.length + 1 = e.depth := by rw [hdepth, hpath]; rfl
  rw [hpath, succs, hlen, ← hpath]
  unfold Build.expand Build.pushChild Build.pushSibling
  split <;> split <;> simp [Build.push, Build.place]

theorem mem_expand_heap {e' : HeapEntry W} (h : e' ∈ (b.expand t e).heap) : e' ∈ b.heap ∨
    (e'.path = (e.rank + 1) :: e.path.tail ∧ e'.rank = e.rank + 1 ∧ e'.depth = e.depth ∧ e'.parentIndex = e.parentIndex) ∨
    (e'.path = 0 :: e.path ∧ e'.rank = 0 ∧ e'.depth = e.depth + 1 ∧ e'.parentIndex = b.nodes.length) := by
  have hpush : ∀ {c : Build W} {d r : Nat} {p : Int} {w : W} {path : List Nat}, e' ∈ (c.push d r p w path).heap →
      e' ∈ c.heap ∨ (e'.path = path ∧ e'.rank = r ∧ e'.depth = d ∧ e'.parentIndex = p) := by
    intro c d r p w path h
    rcases mem_append.1 h with h | h
    · exact .inl h
    · rw [mem_singleton.1 h]
      exact .inr ⟨rfl, rfl, rfl, rfl⟩
  have hsibling : e' ∈ ((b.place t e).pushSibling t e).heap → e' ∈ b.heap ∨
      (e'.path = (e.rank + 1) :: e.path.tail ∧ e'.rank = e.rank + 1 ∧ e'.depth = e.depth ∧
        e'.parentIndex = e.parentIndex) := by
    intro h
    unfold Build.pushSibling at h
    split at h
    · exact hpush h
    · exact .inl h
  unfold Build.expand Build.pushChild at h
  split at h
  · rcases hpush h with h | h
    · exact (hsibling h).imp_right .inl
    · exact .inr (.inr h)
  · exact (hsibling h).imp_right .inl

/-- **A turn of the loop keeps the tree grown**, whichever entry it takes. -/
theorem Grown.expand (h : Grown t b) {rest : List (HeapEntry W)} (hpop : b.heap.Perm (e :: rest)) :
    Grown t ({ b with heap := rest }.expand t e) := by
  have he := h.entries e (hpop.mem_iff.2 mem_cons_self)
  have hlast : (b.nodes ++ [⟨t.token (e.depth - 1) e.rank, e.depth, e.parentIndex, e.logw, e.path⟩])[b.nodes.length]?
      = some ⟨t.token (e.depth - 1) e.rank, e.depth, e.parentIndex, e.logw, e.path⟩ := getElem?_concat_length
  refine ⟨?_, fun e' he' => ?_, fun {i n} hi => ?_, fun {slot token i} hi => ?_, fun n hn => ?_⟩
  · rw [expand_nodes, map_append, expand_paths he.path he.depth]
    exact h.searched.take (branching t) (hpop.map _) (Perm.refl _)
  · rw [expand_nodes]
    rcases mem_expand_heap he' with hold | ⟨hpath, hrank, hdepth, hparent⟩ | ⟨hpath, hrank, hdepth, hparent⟩
    · obtain ⟨hp, hd, hpar⟩ := h.entries e' (hpop.mem_iff.2 (mem_cons_of_mem _ hold))
      exact ⟨hp, hd, hpar.append _⟩
    · refine ⟨by rw [hpath, hrank]; rfl, ?_, ?_⟩
      · rw [hdepth, he.depth, hpath, he.path]; rfl
      · rw [hparent, hpath]
        exact he.parent.append _
    · refine ⟨by rw [hpath, hrank]; rfl, by rw [hdepth, he.depth, hpath]; rfl, ?_⟩
      rw [hparent, hpath]
      exact .inr ⟨b.nodes.length, _, rfl, hlast, rfl⟩
  · rw [expand_nodes] at hi ⊢
    rcases getElem?_concat hi with hi | ⟨rfl, rfl⟩
    · rw [take_append_of_le_length (lt_of_getElem? hi).le]
      exact h.nodes hi
    · rw [take_left]
      refine ⟨⟨e.rank, he.path, ?_⟩, he.depth, he.parent⟩
      rw [he.depth, he.path]
      rfl
  · rw [expand_childMaps] at hi
    rw [expand_nodes]
    unfold Build.place at hi
    dsimp only at hi
    by_cases hs : slot = parentSlot e.parentIndex
    · subst hs
      rw [update_self] at hi
      by_cases ht : token = t.token (e.depth - 1) e.rank
      · subst ht
        rw [update_self] at hi
        cases hi
        exact ⟨_, hlast, rfl, rfl⟩
      · rw [update_of_ne ht] at hi
        obtain ⟨n, hn, hrest⟩ := h.registered hi
        exact ⟨n, getElem?_append_of_some hn _, hrest⟩
    · rw [update_of_ne hs] at hi
      obtain ⟨n, hn, hrest⟩ := h.registered hi
      exact ⟨n, getElem?_append_of_some hn _, hrest⟩
  · rw [expand_childMaps]
    unfold Build.place
    dsimp only
    by_cases hs : parentSlot n.parentIndex = parentSlot e.parentIndex ∧ n.token = t.token (e.depth - 1) e.rank
    · rw [hs.1, hs.2, update_self, update_self]
      exact ⟨_, rfl⟩
    have hold : n ∈ b.nodes := by
      rw [expand_nodes] at hn
      refine (mem_append.1 hn).resolve_right fun hnew => hs ?_
      rw [mem_singleton.1 hnew]
      exact ⟨rfl, rfl⟩
    obtain ⟨i, hi⟩ := h.found n hold
    refine ⟨i, ?_⟩
    by_cases hslot : parentSlot n.parentIndex = parentSlot e.parentIndex
    · rw [hslot, update_self, update_of_ne fun ht => hs ⟨hslot, ht⟩, ← hslot, hi]
    · rw [update_of_ne hslot, hi]

variable [LT W] [DecidableLT W] {cutoff : Option W} {heap : Heap (HeapEntry W)}

/-- **What every turn of the loop keeps, the loop keeps.** -/
theorem grow_inv {minNodes : Nat} {P : Build W → Prop}
    (hstep : ∀ {b e rest}, P b → heap.pop b.heap = some (e, rest) → P ({ b with heap := rest }.expand t e)) :
    ∀ (left : Nat) {b : Build W}, P b → P (grow heap t minNodes cutoff left b)
  | 0, _, h => h
  | left + 1, b, h => by
    unfold grow
    split
    · exact h
    · rename_i e rest hpop
      split
      · exact h
      · exact grow_inv hstep left (hstep h hpop)

theorem grown_grow (heap : Heap (HeapEntry W)) (t : Tables W) (minNodes left : Nat) (cutoff : Option W) (first : W) :
    Grown t (grow heap t minNodes cutoff left (seed first)) :=
  grow_inv (fun h hpop => h.expand (heap.pop_perm hpop)) left (grown_seed t first)

theorem built {minNodes maxNodes : Nat} {tree : DdTree W}
    (h : buildDdtreeTreeBounded heap t minNodes maxNodes cutoff = some tree) : ∃ b, Grown t b ∧
    tree = ⟨b.nodes, visibilityRows (1 + b.nodes.length) b.nodes, b.childMaps⟩ ∧ ∀ n ∈ b.nodes, Candidate t n.path := by
  unfold buildDdtreeTreeBounded at h
  split at h
  · exact ⟨seed 0, grown_seed t 0, (Option.some.inj h).symm, nofun⟩
  split at h
  · cases h
  rename_i hsize
  obtain ⟨first, hfirst, rfl⟩ := Option.map_eq_some_iff.1 h
  have hgrown := grown_grow heap t minNodes maxNodes cutoff first
  refine ⟨_, hgrown, rfl, fun n hn => ?_⟩
  have hlen : 0 < t.topLogProbs.length := lt_of_getElem? hfirst
  rw [not_or, not_not, not_not] at hsize
  rw [hsize.2] at hlen
  exact candidate_of_below (Nat.pos_of_mul_pos_right hlen) (Nat.pos_of_mul_pos_left hlen)
    (hgrown.searched.below _ (mem_append_left _ (mem_map_of_mem hn)))

end Builder

/-! ## Slots, their candidates and their chains -/

section Slots

variable {nodes : List (DdNode W)}

/-- The candidate of a slot; the root's is empty. -/
def slotPath (nodes : List (DdNode W)) : Nat → List Nat
  | 0 => []
  | i + 1 => (nodes[i]?.map DdNode.path).getD []

/-- The nodes on the root path to a slot. -/
def slotChain (nodes : List (DdNode W)) : Nat → List Nat
  | 0 => []
  | i + 1 => ancestorsLoop nodes (i + 1) i []

/-- Every parent is the root or an earlier node. -/
def Rooted (nodes : List (DdNode W)) : Prop :=
  ∀ {i : Nat} {n : DdNode W}, nodes[i]? = some n → n.parentIndex = -1 ∨ ∃ p : Nat, p < i ∧ n.parentIndex = (p : Int)

theorem ancestorsLoop_root (fuel : Nat) (chain : List Nat) : ancestorsLoop nodes fuel (-1) chain = chain := by
  cases fuel with
  | zero => rfl
  | succ fuel => exact if_pos (by decide)

variable {n : DdNode W} {i : Nat}

theorem ancestorsLoop_node (hi : nodes[i]? = some n) (fuel : Nat) (chain : List Nat) :
    ancestorsLoop nodes (fuel + 1) i chain = ancestorsLoop nodes fuel n.parentIndex (i :: chain) := by
  rw [ancestorsLoop, if_neg (by omega), Int.toNat_natCast, hi]

/-- Enough fuel gives the chain, in front of what was collected. -/
theorem ancestorsLoop_fuel (hr : Rooted nodes) : ∀ (i : Nat) {n : DdNode W} {fuel : Nat} (chain : List Nat),
    nodes[i]? = some n → i < fuel → ancestorsLoop nodes fuel i chain = slotChain nodes (i + 1) ++ chain := by
  intro i
  induction i using Nat.strongRecOn with
  | ind i ih =>
    intro n fuel chain hi hfuel
    obtain ⟨fuel, rfl⟩ : ∃ k, fuel = k + 1 := ⟨fuel - 1, by omega⟩
    rw [slotChain, ancestorsLoop_node hi, ancestorsLoop_node hi]
    rcases hr hi with hp | ⟨p, hlt, hp⟩
    · rw [hp, ancestorsLoop_root, ancestorsLoop_root]
      rfl
    · have hlen : p < nodes.length := hlt.trans (lt_of_getElem? hi)
      rw [hp, ih p hlt _ (getElem?_eq_getElem hlen) (by omega), ih p hlt _ (getElem?_eq_getElem hlen) hlt]
      simp

/-- **The chain of a node is its parent's chain and the node.** -/
theorem slotChain_succ (hr : Rooted nodes) (hi : nodes[i]? = some n) :
    parentSlot n.parentIndex ≤ i ∧ slotChain nodes (i + 1) = slotChain nodes (parentSlot n.parentIndex) ++ [i] := by
  rw [slotChain, ancestorsLoop_node hi]
  rcases hr hi with hp | ⟨p, hlt, hp⟩
  · rw [hp, ancestorsLoop_root]
    exact ⟨Nat.zero_le i, rfl⟩
  · have hlen : p < nodes.length := hlt.trans (lt_of_getElem? hi)
    have hslot : parentSlot n.parentIndex = p + 1 := by rw [hp, parentSlot, if_neg (by omega)]; rfl
    rw [hslot, hp]
    exact ⟨hlt, ancestorsLoop_fuel hr p _ (getElem?_eq_getElem hlen) hlt⟩

/-- **Induction over the slots**: the root, and a node after its parent. -/
@[elab_as_elim]
theorem Rooted.slots (hr : Rooted nodes) {P : Nat → Prop} (root : P 0)
    (node : ∀ {i n}, nodes[i]? = some n → P (parentSlot n.parentIndex) → P (i + 1)) (s : Nat) (hs : s ≤ nodes.length) : P s := by
  induction s using Nat.strongRecOn with
  | ind s ih =>
    cases s with
    | zero => exact root
    | succ i =>
      have hi := getElem?_eq_getElem hs
      have hle := (slotChain_succ hr hi).1
      exact node hi (ih _ (Nat.lt_succ_of_le hle) (by omega))

variable {t : Tables W} {b : Build W}

theorem Grown.rooted (h : Grown t b) : Rooted b.nodes := by
  intro i n hi
  rcases (h.nodes hi).parent with ⟨-, hp⟩ | ⟨p, m, hp, hm, -⟩
  · exact .inl hp
  · refine .inr ⟨p, ?_, hp⟩
    have := lt_of_getElem? hm
    rw [length_take] at this
    omega

/-- **The candidate of a node is its rank and its parent's candidate**, and its token and depth are read there. -/
theorem Grown.slot (h : Grown t b) (hi : b.nodes[i]? = some n) :
    ∃ r, slotPath b.nodes (i + 1) = r :: slotPath b.nodes (parentSlot n.parentIndex) ∧
      n.token = t.token (slotPath b.nodes (parentSlot n.parentIndex)).length r ∧
      n.depth = (slotPath b.nodes (parentSlot n.parentIndex)).length + 1 := by
  have hok := h.nodes hi
  have hup : slotPath b.nodes (parentSlot n.parentIndex) = n.path.tail := by
    rcases hok.parent with ⟨hnil, hp⟩ | ⟨p, m, hp, hm, hpath⟩
    · rw [hp, hnil]
      rfl
    have hslot : parentSlot n.parentIndex = p + 1 := by rw [hp, parentSlot, if_neg (by omega)]; rfl
    have hm' : b.nodes[p]? = some m := by
      rw [getElem?_take] at hm
      split at hm
      · exact hm
      · cases hm
    rw [hslot, slotPath, hm', ← hpath]
    rfl
  obtain ⟨r, hpath, htoken⟩ := hok.token
  refine ⟨r, ?_, hup ▸ htoken, ?_⟩
  · rw [slotPath, hi, hup]
    exact hpath
  · rw [hok.depth, hup, hpath]
    rfl

end Slots

/-- Two draft positions with two tokens each. -/
def twoByTwo : Tables Int := ⟨[5, 6, 7, 8], [-1, -2, -1, -3], 2, 2⟩

end Hipfire.Draft

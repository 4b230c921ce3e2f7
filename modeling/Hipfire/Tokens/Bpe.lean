import Hipfire.Base.Queue
import Hipfire.Base.Lists
import Hipfire.Base.Machine
/-!
# Bpe — the rank-ordered merge, by heap and by scan

`bpe_merge_symbols` keeps the symbols in a doubly linked list over fixed slots and the mergeable pairs in a min-heap
whose entries go stale: a merge bumps the generation of the slots whose right-hand pair it changed, and a popped entry
counts only when its slot is alive and its generation is the slot's.  `naive` is the quadratic procedure the heap
replaces: find the lowest-ranked adjacent pair, leftmost on ties, replace it, start over.
-/
namespace Hipfire.Tokens

/-- `merge_pair_rank` and `merges`: a rank is an index into `merges`, as `resolve_merges` builds it. -/
structure MergeTable where
  rank : Nat → Nat → Option Nat
  merges : List Nat
  inRange : ∀ {a b r}, rank a b = some r → r < merges.length

/-- The id a rank merges to. -/
def MergeTable.merged (t : MergeTable) (rank : Nat) : Nat := t.merges.getD rank 0

/-- A heap entry `(rank, left_idx, gen_at_push)`, ordered as the tuple is. -/
structure Entry where
  rank : Nat
  left : Nat
  gen : Nat
  deriving DecidableEq, Repr

def Entry.key (e : Entry) : Nat ×ₗ Nat ×ₗ Nat := toLex (e.rank, toLex (e.left, e.gen))

theorem Entry.key_injective : Function.Injective Entry.key := fun a b h => by
  cases a
  cases b
  simpa [Entry.key] using h

instance : LinearOrder Entry := LinearOrder.lift' Entry.key Entry.key_injective

theorem Entry.le_iff (a b : Entry) :
    a ≤ b ↔ a.rank < b.rank ∨ a.rank = b.rank ∧ (a.left < b.left ∨ a.left = b.left ∧ a.gen ≤ b.gen) := by
  change a.key ≤ b.key ↔ _
  simp only [Entry.key, Prod.Lex.toLex_le_toLex]

/-- The slots of the merge: `prev` and `next` are `i32` with −1 for none. -/
structure Slots where
  syms : Nat → Nat
  prev : Nat → Int
  next : Nat → Int
  dead : Nat → Bool
  gen : Nat → Nat
  heap : List Entry

/-- `push_pair`. -/
def Slots.pushPair (t : MergeTable) (s : Slots) (l r : Nat) : Slots :=
  match t.rank (s.syms l) (s.syms r) with
  | some rank => { s with heap := ⟨rank, l, s.gen l⟩ :: s.heap }
  | none => s

/-- The list before the first merge: slot `i` holds symbol `i`, linked to `i − 1` and `i + 1`. -/
def Slots.unlinked (syms : List Nat) : Slots where
  syms i := syms.getD i 0
  prev i := (i : Int) - 1
  next i := if i + 1 < syms.length then ((i + 1 : Nat) : Int) else -1
  dead _ := false
  gen _ := 0
  heap := []

/-- Step 5: the heap is seeded with the adjacent pairs. -/
def Slots.seeded (t : MergeTable) (syms : List Nat) : Slots :=
  (List.range (syms.length - 1)).foldl (fun s i => s.pushPair t i (i + 1)) (Slots.unlinked syms)

/-- `gen[i] += 1`. -/
def Slots.bump (s : Slots) (i : Nat) : Slots := { s with gen := Function.update s.gen i (wrappingInc (s.gen i)) }

/-- `l` absorbs `r`: the merged id, the tombstone, the generation and the splice. -/
def Slots.splice (t : MergeTable) (s : Slots) (rank l r : Nat) : Slots :=
  let s := { s with syms := Function.update s.syms l (t.merged rank), dead := Function.update s.dead r true }
  let s := s.bump l
  let nr := s.next r
  let s := { s with next := Function.update s.next l nr }
  if 0 ≤ nr then { s with prev := Function.update s.prev nr.toNat (asI32 l) } else s

/-- The pair to the left of `l` is new: bump its slot, then push it. -/
def Slots.pushLeft (t : MergeTable) (s : Slots) (l : Nat) : Slots :=
  if 0 ≤ s.prev l then (s.bump (s.prev l).toNat).pushPair t (s.prev l).toNat l else s

/-- The pair to the right of `l`. -/
def Slots.pushRight (t : MergeTable) (s : Slots) (l : Nat) : Slots :=
  if 0 ≤ s.next l then s.pushPair t l (s.next l).toNat else s

/-- `l` absorbs `r` and the two new pairs are pushed. -/
def Slots.absorb (t : MergeTable) (s : Slots) (rank l r : Nat) : Slots :=
  ((s.splice t rank l r).pushLeft t l).pushRight t l

/-- The test on a popped entry: alive, of the slot's generation, with a right neighbour. -/
def Slots.fresh (s : Slots) (e : Entry) : Bool := !s.dead e.left && s.gen e.left == e.gen && decide (0 ≤ s.next e.left)

/-- The body of the merge loop; nothing once the heap is empty. -/
def mergeStep (t : MergeTable) (s : Slots) : Option Slots :=
  match popMin s.heap with
  | none => none
  | some (e, heap) =>
    let s := { s with heap := heap }
    if s.fresh e then some (s.absorb t e.rank e.left (s.next e.left).toNat) else some s

def mergeLoop (t : MergeTable) : Nat → Slots → Option Slots
  | 0, _ => none
  | fuel + 1, s =>
    match mergeStep t s with
    | none => some s
    | some s => mergeLoop t fuel s

/-- Step 7: follow `next` from slot `p`. -/
def walkList (s : Slots) : Nat → Int → Option (List Nat)
  | 0, _ => none
  | fuel + 1, p => if 0 ≤ p then (walkList s fuel (s.next p.toNat)).map (s.syms p.toNat :: ·) else some []

/-- The first live slot with no left neighbour. -/
def headSlot (s : Slots) (n : Nat) : Int :=
  match (List.range n).find? (fun i => s.prev i == -1 && !s.dead i) with
  | some i => i
  | none => -1

/-- `bpe_merge_symbols`; nothing only if a loop of it did not end within its fuel. -/
def bpeMergeSymbols (t : MergeTable) (syms out : List Nat) : Option (List Nat) :=
  match syms with
  | [] => some out
  | [x] => some (out ++ [x])
  | _ =>
    (mergeLoop t (3 * syms.length) (Slots.seeded t syms)).bind fun s =>
      (walkList s (syms.length + 1) (headSlot s syms.length)).map (out ++ ·)

/-! ## The reference -/

/-- The lowest rank of an adjacent pair and the leftmost position that has it. -/
def lowestPair (t : MergeTable) : List Nat → Option (Nat × Nat)
  | a :: b :: rest =>
    match t.rank a b, lowestPair t (b :: rest) with
    | none, none => none
    | none, some (r', p) => some (r', p + 1)
    | some r, none => some (r, 0)
    | some r, some (r', p) => if r ≤ r' then some (r, 0) else some (r', p + 1)
  | _ => none

/-- The pair at `p` replaced by `x`. -/
def replacePair (x p : Nat) (syms : List Nat) : List Nat := syms.take p ++ x :: syms.drop (p + 2)

def naiveLoop (t : MergeTable) : Nat → List Nat → List Nat
  | 0, syms => syms
  | fuel + 1, syms =>
    match lowestPair t syms with
    | none => syms
    | some (r, p) => naiveLoop t fuel (replacePair (t.merged r) p syms)

/-- Scan, replace, repeat until no adjacent pair has a rank; a replacement shortens the list, so its length bounds the
scans. -/
def naive (t : MergeTable) (syms : List Nat) : List Nat := naiveLoop t syms.length syms

end Hipfire.Tokens

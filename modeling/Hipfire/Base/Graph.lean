import Mathlib
/-!
# Graph — finite directed graphs as lists of arcs

Acyclicity, a depth-first search for a path, and two ways to fill a bit matrix with the transitive closure in reverse
topological order: by the successors of each node (`closeSuccs`) and by its predecessors (`closePreds`).
-/
namespace Hipfire

open List
open Relation (TransGen ReflTransGen)

variable {α : Type}

def Arc (E : List (α × α)) (a b : α) : Prop := (a, b) ∈ E

def Acyclic (E : List (α × α)) : Prop := ∀ a, ¬ TransGen (Arc E) a a

theorem acyclic_nil : Acyclic ([] : List (α × α)) := fun a h => by
  have : ∀ b, TransGen (Arc ([] : List (α × α))) a b → False := fun b hb => by
    induction hb with
    | single h | tail _ h _ => cases h
  exact this a h

variable {E : List (α × α)} {order : List α}

/-- **A new arc closes no cycle if its head did not already reach its tail.** -/
theorem acyclic_insert {E' : List (α × α)} {a b : α} (hE : Acyclic E)
    (hmem : ∀ p, p ∈ E' ↔ p = (a, b) ∨ p ∈ E) (hpath : ¬ ReflTransGen (Arc E) b a) : Acyclic E' := by
  -- a walk of the new graph stays in the old one, or splits at its last use of the new arc
  have key : ∀ x y, TransGen (Arc E') x y → TransGen (Arc E) x y ∨ (ReflTransGen (Arc E) x a ∧ ReflTransGen (Arc E) b y) := by
    intro x y h
    induction h with
    | single h =>
      rcases (hmem _).1 h with h | h
      · obtain ⟨rfl, rfl⟩ := Prod.mk.inj h
        exact .inr ⟨.refl, .refl⟩
      · exact .inl (.single h)
    | tail _ h ih =>
      rcases (hmem _).1 h with h | h
      · obtain ⟨rfl, rfl⟩ := Prod.mk.inj h
        rcases ih with ih | ⟨h1, h2⟩
        · exact .inr ⟨ih.to_reflTransGen, .refl⟩
        · exact absurd h2 hpath
      · rcases ih with ih | ⟨h1, h2⟩
        · exact .inl (ih.tail h)
        · exact .inr ⟨h1, h2.tail h⟩
  intro x hx
  rcases key x x hx with h | ⟨h1, h2⟩
  · exact hE x h
  · exact hpath (h2.trans h1)

/-- **A nonempty set of nodes of an acyclic graph has one with no predecessor in the set.** -/
theorem exists_source (hE : Acyclic E) (S : List α) (hS : S ≠ []) : ∃ a ∈ S, ∀ b ∈ S, ¬ Arc E b a := by
  have : IsStrictOrder α (TransGen (Arc E)) := { irrefl := hE, trans := fun _ _ _ => TransGen.trans }
  have hfin : {a | a ∈ S}.Finite := finite_toSet S
  obtain ⟨x, hx⟩ := exists_mem_of_ne_nil S hS
  have hwf := hfin.wellFoundedOn (r := TransGen (Arc E))
  obtain ⟨m, hm⟩ := hwf.has_min Set.univ ⟨⟨x, hx⟩, trivial⟩
  exact ⟨m.1, m.2, fun b hb hbm => hm.2 ⟨b, hb⟩ trivial (.single hbm)⟩

/-- What every element has to all later ones holds of every pair. -/
theorem pairwise_of_split {R : α → α → Prop} : ∀ {l : List α}, (∀ pre v post, l = pre ++ v :: post → ∀ b ∈ post, R v b) →
    l.Pairwise R
  | [], _ => .nil
  | v :: post, h => .cons (h [] v post rfl) (pairwise_of_split fun pre w post' he => h (v :: pre) w post' (by rw [he]; rfl))

theorem transGen_iff_head {r : α → α → Prop} {a x : α} : TransGen r a x ↔ ∃ t, r a t ∧ (x = t ∨ TransGen r t x) := by
  constructor
  · intro h
    obtain ⟨t, h1, h2⟩ := TransGen.head'_iff.1 h
    refine ⟨t, h1, ?_⟩
    rcases Relation.reflTransGen_iff_eq_or_transGen.1 h2 with h | h
    · exact .inl h
    · exact .inr h
  · rintro ⟨t, h1, rfl | h2⟩
    · exact .single h1
    · exact .head h1 h2

/-! ## Topological orders -/

/-- `order` lists every endpoint of an arc, and no arc points backwards in it. -/
structure TopoOrder (E : List (α × α)) (order : List α) : Prop where
  nodup : order.Nodup
  endpoints : ∀ a b, Arc E a b → a ∈ order ∧ b ∈ order
  forward : order.Pairwise (fun a b => ¬ Arc E b a)
  loopless : ∀ a, ¬ Arc E a a

/-- The successors of a node listed in a topological order come after it. -/
theorem TopoOrder.succ_mem {pre post : List α} {v t : α} (h : TopoOrder E order)
    (he : order = pre ++ v :: post) (hvt : Arc E v t) : t ∈ post := by
  have hm := (h.endpoints v t hvt).2
  rw [he] at hm
  have hp := h.forward
  rw [he] at hp
  rcases mem_append.1 hm with hm | hm
  · exact absurd hvt ((pairwise_append.1 hp).2.2 t hm v (by simp))
  · rcases mem_cons.1 hm with rfl | hm
    · exact absurd hvt (h.loopless t)
    · exact hm

/-- So does everything a node reaches. -/
theorem TopoOrder.reach_mem {v t : α} (h : TopoOrder E order) (hvt : TransGen (Arc E) v t) :
    ∀ pre post, order = pre ++ v :: post → t ∈ post := by
  induction hvt using TransGen.head_induction_on with
  | single hab => exact fun pre post he => h.succ_mem he hab
  | @head a c hab _ ih =>
    intro pre post he
    obtain ⟨p1, p2, rfl⟩ := append_of_mem (h.succ_mem he hab)
    have := ih (pre ++ a :: p1) p2 (by rw [he]; simp)
    simp [this]

/-- **No node of a topological order reaches one before it.** -/
theorem TopoOrder.no_way_back (h : TopoOrder E order) : order.Pairwise (fun a b => ¬ TransGen (Arc E) b a) := by
  refine pairwise_of_split fun pre v post he b hb hbv => ?_
  obtain ⟨p1, p2, rfl⟩ := append_of_mem hb
  have hv := h.reach_mem hbv (pre ++ v :: p1) p2 (by rw [he]; simp)
  have hnd := h.nodup
  rw [he] at hnd
  exact (nodup_cons.1 (nodup_append.1 hnd).2.1).1 (by simp [hv])

variable [DecidableEq α]

/-! ## Depth-first search -/

/-- The targets of the arcs out of `v`, in the arcs' order. -/
def succsOf (E : List (α × α)) (v : α) : List α := (E.filter (fun e => decide (e.1 = v))).map Prod.snd

theorem mem_succsOf {v w : α} : w ∈ succsOf E v ↔ Arc E v w := by
  simp [succsOf, Arc]

/-- The sources of the arcs into `v`, in the arcs' order. -/
def predsOf (E : List (α × α)) (v : α) : List α := (E.filter (fun e => decide (e.2 = v))).map Prod.fst

theorem mem_predsOf {v w : α} : w ∈ predsOf E v ↔ Arc E w v := by
  simp [predsOf, Arc]

/-- Depth-first search for `goal` from a stack of nodes (its head on top), never expanding a seen node again. -/
def dfs (E : List (α × α)) (goal : α) : Nat → List α → List α → Bool
  | 0, _, _ => false
  | _ + 1, [], _ => false
  | fuel + 1, v :: stack, seen =>
    if v = goal then true
    else if v ∈ seen then dfs E goal fuel stack seen
    else dfs E goal fuel ((succsOf E v).reverse ++ stack) (v :: seen)

theorem dfs_sound (E : List (α × α)) (goal : α) : ∀ (fuel : Nat) (stack seen : List α),
    dfs E goal fuel stack seen = true → ∃ v ∈ stack, ReflTransGen (Arc E) v goal
  | 0, _, _, h => by simp [dfs] at h
  | _ + 1, [], _, h => by simp [dfs] at h
  | fuel + 1, v :: stack, seen, h => by
    unfold dfs at h
    split at h
    · rename_i hv; subst hv; exact ⟨v, by simp, .refl⟩
    split at h
    · obtain ⟨w, hw, hp⟩ := dfs_sound E goal fuel stack seen h
      exact ⟨w, mem_cons_of_mem _ hw, hp⟩
    · obtain ⟨w, hw, hp⟩ := dfs_sound E goal fuel _ _ h
      rcases mem_append.1 hw with hw | hw
      · exact ⟨v, by simp, .head (mem_succsOf.1 (mem_reverse.1 hw)) hp⟩
      · exact ⟨w, mem_cons_of_mem _ hw, hp⟩

/-- The arcs whose source is not yet seen: what the search may still push. -/
def unseenArcs (E : List (α × α)) (seen : List α) : Nat := (E.filter (fun e => decide (e.1 ∉ seen))).length

theorem unseenArcs_cons (E : List (α × α)) (seen : List α) (v : α) (hv : v ∉ seen) :
    unseenArcs E (v :: seen) + (succsOf E v).length = unseenArcs E seen := by
  induction E with
  | nil => simp [unseenArcs, succsOf]
  | cons e E ih =>
    simp only [unseenArcs, succsOf, length_map] at ih ⊢
    by_cases h1 : e.1 = v
    · subst h1; simp [hv] at ih ⊢; omega
    · by_cases h2 : e.1 ∈ seen
      · simp [h1, h2] at ih ⊢; omega
      · simp [h1, h2] at ih ⊢; omega

/-- **A search that had fuel enough and found nothing has seen a closed set without the goal.** -/
theorem dfs_complete (E : List (α × α)) (goal : α) : ∀ (fuel : Nat) (stack seen : List α),
    stack.length + unseenArcs E seen ≤ fuel → dfs E goal fuel stack seen = false →
    (∀ v ∈ seen, v ≠ goal ∧ ∀ w, Arc E v w → w ∈ seen ∨ w ∈ stack) →
    ∃ C : List α, (∀ v ∈ stack, v ∈ C) ∧ (∀ v ∈ seen, v ∈ C) ∧ ∀ v ∈ C, v ≠ goal ∧ ∀ w, Arc E v w → w ∈ C
  | fuel, [], seen, _, _, hs => ⟨seen, by simp, fun _ h => h, fun v hv => ⟨(hs v hv).1, fun w hw => by
      rcases (hs v hv).2 w hw with h | h
      · exact h
      · cases h⟩⟩
  | 0, v :: stack, seen, hf, _, _ => by simp at hf
  | fuel + 1, v :: stack, seen, hf, h, hs => by
    unfold dfs at h
    split at h
    · cases h
    rename_i hg
    rw [length_cons] at hf
    split at h
    · rename_i hv
      obtain ⟨C, h1, h2, h3⟩ := dfs_complete E goal fuel stack seen (by omega) h (fun u hu => ⟨(hs u hu).1, fun w hw => by
        rcases (hs u hu).2 w hw with hw | hw
        · exact .inl hw
        · rcases mem_cons.1 hw with rfl | hw
          · exact .inl hv
          · exact .inr hw⟩)
      exact ⟨C, forall_mem_cons.2 ⟨h2 _ hv, h1⟩, h2, h3⟩
    · rename_i hv
      have hcount := unseenArcs_cons E seen v hv
      obtain ⟨C, h1, h2, h3⟩ := dfs_complete E goal fuel ((succsOf E v).reverse ++ stack) (v :: seen)
        (by rw [length_append, length_reverse]; omega) h (forall_mem_cons.2 ⟨⟨hg, fun w hw =>
          .inr (mem_append_left _ (mem_reverse.2 (mem_succsOf.2 hw)))⟩, fun u hu => ⟨(hs u hu).1, fun w hw => by
          rcases (hs u hu).2 w hw with hw | hw
          · exact .inl (mem_cons_of_mem _ hw)
          · rcases mem_cons.1 hw with rfl | hw
            · exact .inl (by simp)
            · exact .inr (mem_append_right _ hw)⟩⟩)
      rw [forall_mem_cons] at h2
      exact ⟨C, forall_mem_cons.2 ⟨h2.1, fun u hu => h1 u (mem_append_right _ hu)⟩, h2.2, h3⟩

/-- **The search decides reachability**, given one unit of fuel for its start and one for each arc. -/
theorem dfs_iff (E : List (α × α)) (start goal : α) :
    dfs E goal (E.length + 1) [start] [] = true ↔ ReflTransGen (Arc E) start goal := by
  constructor
  · intro h
    obtain ⟨v, hv, hp⟩ := dfs_sound E goal _ _ _ h
    rw [mem_singleton.1 hv] at hp
    exact hp
  · intro hp
    cases h : dfs E goal (E.length + 1) [start] [] with
    | true => rfl
    | false =>
      exfalso
      have hu : unseenArcs E [] = E.length := by simp [unseenArcs]
      obtain ⟨C, h1, -, h3⟩ := dfs_complete E goal (E.length + 1) [start] [] (by rw [hu]; simp; omega) h (by simp)
      have : ∀ v, ReflTransGen (Arc E) start v → v ∈ C := fun v hv => by
        induction hv with
        | refl => exact h1 start (by simp)
        | tail _ hw ih => exact (h3 _ ih).2 _ hw
      exact (h3 goal (this goal hp)).1 rfl

/-! ## Transitive closure in reverse topological order -/

/-- Row `v` gains `t` and everything in row `t`. -/
def orRow (R : α → α → Bool) (v t : α) : α → α → Bool :=
  fun a x => if a = v then R v x || decide (x = t) || R t x else R a x

/-- Fill the matrix from the last node to the first, each row from the rows of its successors. -/
def closeSuccs (succs : α → List α) (order : List α) : α → α → Bool :=
  order.foldr (fun v R => (succs v).foldl (fun R t => orRow R v t) R) (fun _ _ => false)

/-- Fill the matrix from the last node to the first, each node adding its row to those of its predecessors. -/
def closePreds (preds : α → List α) (order : List α) : α → α → Bool :=
  order.foldr (fun n R => (preds n).foldl (fun R d => orRow R d n) R) (fun _ _ => false)

theorem orRow_self (R : α → α → Bool) (v t x : α) : orRow R v t v x = true ↔ R v x = true ∨ x = t ∨ R t x = true := by
  simp [orRow, or_assoc]

theorem foldl_orRow_succs (v : α) : ∀ (ts : List α) (R : α → α → Bool), v ∉ ts →
    ∀ a x, ts.foldl (fun R t => orRow R v t) R a x = true ↔
      R a x = true ∨ (a = v ∧ ∃ t ∈ ts, x = t ∨ R t x = true)
  | [], R, _, a, x => by simp
  | t :: ts, R, hv, a, x => by
    rw [mem_cons, not_or] at hv
    rw [foldl_cons, foldl_orRow_succs v ts (orRow R v t) hv.2]
    have hrest : (∃ u ∈ ts, x = u ∨ orRow R v t u x = true) ↔ ∃ u ∈ ts, x = u ∨ R u x = true := by
      refine exists_congr fun u => and_congr_right fun hu => ?_
      have : u ≠ v := fun h => hv.2 (h ▸ hu)
      simp [orRow, this]
    rw [hrest]
    by_cases ha : a = v
    · subst ha
      rw [orRow_self]
      simp only [true_and, mem_cons, exists_eq_or_imp, or_assoc]
    · simp [orRow, ha]

theorem foldl_orRow_preds (n : α) : ∀ (ds : List α) (R : α → α → Bool), n ∉ ds →
    ∀ a x, ds.foldl (fun R d => orRow R d n) R a x = true ↔
      R a x = true ∨ (a ∈ ds ∧ (x = n ∨ R n x = true))
  | [], R, _, a, x => by simp
  | d :: ds, R, hn, a, x => by
    rw [mem_cons, not_or] at hn
    have hrow : orRow R d n n x = R n x := by simp [orRow, hn.1]
    rw [foldl_cons, foldl_orRow_preds n ds (orRow R d n) hn.2, hrow]
    by_cases ha : a = d
    · subst ha
      rw [orRow_self, mem_cons, or_assoc, or_iff_left_of_imp And.right]
      simp
    · simp [orRow, ha]

/-- **Filling by successors gives the transitive closure.** -/
theorem closeSuccs_iff (h : TopoOrder E order) (succs : α → List α) (hs : ∀ v t, t ∈ succs v ↔ Arc E v t) (a x : α) :
    closeSuccs succs order a x = true ↔ TransGen (Arc E) a x := by
  -- over a suffix of the order, the rows of its nodes are complete and the others empty
  have key : ∀ (post pre : List α), order = pre ++ post →
      ∀ a x, closeSuccs succs post a x = true ↔ a ∈ post ∧ TransGen (Arc E) a x := by
    intro post
    induction post with
    | nil => intro _ _ a x; simp [closeSuccs]
    | cons v post ih =>
      intro pre he a x
      have ih' := ih (pre ++ [v]) (by rw [he]; simp)
      have hv : v ∉ succs v := fun hm => h.loopless v ((hs v v).1 hm)
      have hfold : closeSuccs succs (v :: post) = (succs v).foldl (fun R t => orRow R v t) (closeSuccs succs post) := rfl
      have hvp : v ∉ post := by
        have := h.nodup; rw [he] at this
        exact (nodup_cons.1 (nodup_append.1 this).2.1).1
      rw [hfold, foldl_orRow_succs v _ _ hv, ih' a x, mem_cons]
      by_cases hav : a = v
      · subst hav
        rw [transGen_iff_head]
        simp only [hvp, false_and, false_or, or_false, true_and, hs]
        exact exists_congr fun t => and_congr_right fun ht =>
          or_congr_right ((ih' t x).trans (and_iff_right (h.succ_mem he ht)))
      · simp [hav]
  rw [key order [] rfl a x]
  refine ⟨fun h => h.2, fun ht => ⟨?_, ht⟩⟩
  obtain ⟨t, h1, -⟩ := transGen_iff_head.1 ht
  exact (h.endpoints a t h1).1

/-- **Filling by predecessors gives the transitive closure.** -/
theorem closePreds_iff (h : TopoOrder E order) (preds : α → List α) (hp : ∀ n d, d ∈ preds n ↔ Arc E d n) (a x : α) :
    closePreds preds order a x = true ↔ TransGen (Arc E) a x := by
  -- over a suffix of the order, a row holds the walks whose first arc enters the suffix
  have key : ∀ (post pre : List α), order = pre ++ post →
      ∀ a x, closePreds preds post a x = true ↔ ∃ t ∈ post, Arc E a t ∧ (x = t ∨ TransGen (Arc E) t x) := by
    intro post
    induction post with
    | nil => intro _ _ a x; simp [closePreds]
    | cons n post ih =>
      intro pre he a x
      have ih' := ih (pre ++ [n]) (by rw [he]; simp)
      have hn : n ∉ preds n := fun hm => h.loopless n ((hp n n).1 hm)
      have hfold : closePreds preds (n :: post) = (preds n).foldl (fun R d => orRow R d n) (closePreds preds post) := rfl
      have hrow : closePreds preds post n x = true ↔ TransGen (Arc E) n x := by
        rw [ih' n x, transGen_iff_head]
        exact ⟨fun ⟨t, _, h1, h2⟩ => ⟨t, h1, h2⟩, fun ⟨t, h1, h2⟩ => ⟨t, h.succ_mem he h1, h1, h2⟩⟩
      rw [hfold, foldl_orRow_preds n _ _ hn, ih' a x, hrow, hp, or_comm]
      simp only [mem_cons, exists_eq_or_imp]
  rw [key order [] rfl a x, transGen_iff_head]
  exact ⟨fun ⟨t, _, h1, h2⟩ => ⟨t, h1, h2⟩, fun ⟨t, h1, h2⟩ => ⟨t, (h.endpoints a t h1).2, h1, h2⟩⟩

end Hipfire

import Mathlib
/-!
# BestFirst — search through a tree whose nodes name their successors

A search takes one entry of its frontier at a time and puts the successors of what it took into the frontier.  `Searched`
says what has been taken and what stands in the frontier; it does not depend on which entry is taken.  When every
successor weighs at most what its predecessor weighs and the heaviest entry is taken each time, what was taken is heavier
than everything else (`Ranked.least`).
-/
namespace Hipfire

open List

universe u v
variable {α : Type u}

/-- Every node but the root is the successor of exactly one node, once. -/
structure Branching (succs : α → List α) (root : α) : Prop where
  fresh : ∀ a, root ∉ succs a
  single : ∀ {a b c}, c ∈ succs a → c ∈ succs b → a = b
  nodup : ∀ a, (succs a).Nodup

/-- `x` is below `a`, or is `a`. -/
def Below (succs : α → List α) (a x : α) : Prop := Relation.ReflTransGen (fun a b => b ∈ succs a) a x

/-- A search that has taken `done`, in this order, and may take one of `front` next. -/
structure Searched (succs : α → List α) (root : α) (done front : List α) : Prop where
  nodup : (done ++ front).Nodup
  seen : ∀ x, x ∈ done ++ front ↔ x = root ∨ ∃ p ∈ done, x ∈ succs p
  below : ∀ x ∈ done ++ front, Below succs root x
  earlier : ∀ {l x l'}, done = l ++ x :: l' → x = root ∨ ∃ p ∈ l, x ∈ succs p

variable {succs : α → List α} {root : α} {done front rest front' : List α} {m x : α}

theorem Searched.start (root : α) : Searched succs root [] [root] where
  nodup := nodup_singleton root
  seen x := by simp
  below x hx := mem_singleton.1 hx ▸ .refl
  earlier h := by simp at h

theorem Searched.take (h : Searched succs root done front) (hb : Branching succs root) (hpop : front.Perm (m :: rest))
    (hpush : front'.Perm (rest ++ succs m)) : Searched succs root (done ++ [m]) front' := by
  have hall : (done ++ [m] ++ front').Perm (done ++ front ++ succs m) := by
    rw [append_assoc, append_assoc]
    refine Perm.append_left done ((Perm.append_left [m] hpush).trans ?_)
    exact (hpop.symm.append_right (succs m))
  have hm : m ∈ done ++ front := mem_append_right _ (hpop.mem_iff.2 mem_cons_self)
  have hmdone : m ∉ done := fun hin =>
    (nodup_append.1 h.nodup).2.2 m hin m (hpop.mem_iff.2 mem_cons_self) rfl
  refine ⟨hall.nodup_iff.2 (nodup_append.2 ⟨h.nodup, hb.nodup m, fun a ha c hc hac => ?_⟩), fun x => ?_,
    fun x hx => ?_, fun {l x l'} hsplit => ?_⟩
  · subst hac
    rcases (h.seen a).1 ha with rfl | ⟨p, hp, hap⟩
    · exact hb.fresh m hc
    · exact hmdone (hb.single hap hc ▸ hp)
  · rw [hall.mem_iff, mem_append, h.seen x]
    constructor
    · rintro ((rfl | ⟨p, hp, hx⟩) | hx)
      · exact .inl rfl
      · exact .inr ⟨p, mem_append_left _ hp, hx⟩
      · exact .inr ⟨m, by simp, hx⟩
    · rintro (rfl | ⟨p, hp, hx⟩)
      · exact .inl (.inl rfl)
      · rcases mem_append.1 hp with hp | hp
        · exact .inl (.inr ⟨p, hp, hx⟩)
        · exact .inr (mem_singleton.1 hp ▸ hx)
  · rcases mem_append.1 (hall.mem_iff.1 hx) with hx | hx
    · exact h.below x hx
    · exact (h.below m hm).tail hx
  · rcases append_eq_append_iff.1 hsplit with ⟨l₂, rfl, hl₂⟩ | ⟨l₂, hdone, hl₂⟩
    · cases l₂ with
      | nil =>
        obtain ⟨rfl, -⟩ : m = x ∧ [] = l' := by simpa using hl₂
        simpa using (h.seen m).1 hm
      | cons y l₂ => simp at hl₂
    · cases l₂ with
      | nil =>
        obtain ⟨rfl, -⟩ : x = m ∧ l' = [] := by simpa using hl₂
        rw [append_nil] at hdone
        exact hdone ▸ (h.seen x).1 hm
      | cons y l₂ =>
        obtain ⟨rfl, -⟩ := cons.inj hl₂
        exact h.earlier hdone

/-- **Whatever is not taken yet is below something in the frontier.** -/
theorem Searched.frontier (h : Searched succs root done front) (hx : Below succs root x) (hnot : x ∉ done) :
    ∃ a ∈ front, Below succs a x := by
  have hin : ∀ {y}, y ∈ done ++ front → y ∉ done → y ∈ front := fun hy hn => (mem_append.1 hy).resolve_left hn
  induction hx with
  | refl => exact ⟨root, hin ((h.seen root).2 (.inl rfl)) hnot, .refl⟩
  | @tail p x hp hpx ih =>
    by_cases hdone : p ∈ done
    · exact ⟨x, hin ((h.seen x).2 (.inr ⟨p, hdone, hpx⟩)) hnot, .refl⟩
    · obtain ⟨a, ha, hap⟩ := ih hdone
      exact ⟨a, ha, hap.tail hpx⟩

/-- **A search with an empty frontier has taken everything; one with `n` entries taken has not more than there is.** -/
theorem Searched.length_done (h : Searched succs root done front) (hfin : {x | Below succs root x}.Finite) {n : Nat}
    (hstop : front = [] ∧ done.length ≤ n ∨ done.length = n) : done.length = min n {x | Below succs root x}.ncard := by
  classical
  have hnodup : done.Nodup := (nodup_append.1 h.nodup).1
  have hcard : (done.toFinset : Set α).ncard = done.length := by
    rw [Set.ncard_coe_finset, toFinset_card_of_nodup hnodup]
  have hsub : (done.toFinset : Set α) ⊆ {x | Below succs root x} := fun x hx =>
    h.below x (mem_append_left _ (mem_toFinset.1 hx))
  have hle : done.length ≤ {x | Below succs root x}.ncard := hcard ▸ Set.ncard_le_ncard hsub hfin
  rcases hstop with ⟨rfl, hn⟩ | hn
  · have heq : {x | Below succs root x} = (done.toFinset : Set α) := by
      refine Set.Subset.antisymm (fun x hx => ?_) hsub
      by_contra hnot
      obtain ⟨a, ha, -⟩ := h.frontier hx fun hin => hnot (Finset.mem_coe.2 (mem_toFinset.2 hin))
      cases ha
    rw [heq, hcard]
    omega
  · omega

/-! ## Heaviest first -/

section Weights

variable {W : Type v} [Preorder W] {w : α → W}

theorem Below.weight_le (hw : ∀ a, ∀ b ∈ succs a, w b ≤ w a) {a : α} (h : Below succs a x) : w x ≤ w a := by
  induction h with
  | refl => exact le_refl _
  | tail _ hstep ih => exact (hw _ _ hstep).trans ih

/-- What was taken weighs less and less, and nothing in the frontier weighs more than any of it. -/
structure Ranked (w : α → W) (done front : List α) : Prop where
  sorted : done.Pairwise fun a b => w b ≤ w a
  bound : ∀ d ∈ done, ∀ x ∈ front, w x ≤ w d

theorem Ranked.take (h : Ranked w done front) (hw : ∀ a, ∀ b ∈ succs a, w b ≤ w a) (hpop : front.Perm (m :: rest))
    (hbest : ∀ x ∈ rest, w x ≤ w m) (hpush : front'.Perm (rest ++ succs m)) : Ranked w (done ++ [m]) front' := by
  have hm : m ∈ front := hpop.mem_iff.2 mem_cons_self
  have hdm : ∀ d ∈ done, w m ≤ w d := fun d hd => h.bound d hd m hm
  refine ⟨pairwise_append.2 ⟨h.sorted, pairwise_singleton _ _, fun d hd => forall_mem_singleton.2 (hdm d hd)⟩,
    fun d hd x hx => ?_⟩
  refine le_trans ?_ (forall_mem_append.2 ⟨hdm, forall_mem_singleton.2 (le_refl _)⟩ d hd)
  rcases mem_append.1 (hpush.mem_iff.1 hx) with hx | hx
  · exact hbest x hx
  · exact hw m x hx

/-- **Nothing left out weighs more than anything taken.** -/
theorem Ranked.least (h : Ranked w done front) (hs : Searched succs root done front)
    (hw : ∀ a, ∀ b ∈ succs a, w b ≤ w a) (hx : Below succs root x) (hnot : x ∉ done) : ∀ d ∈ done, w x ≤ w d := by
  intro d hd
  obtain ⟨a, ha, hax⟩ := hs.frontier hx hnot
  exact (hax.weight_le hw).trans (h.bound d hd a ha)

end Weights

end Hipfire

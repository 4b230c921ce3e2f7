import Mathlib
/-!
# OrdSet — ordered sets as strictly increasing lists

A set kept in its element order, over any strict total order given as a test: iteration is in order, and the first
element is the least.
-/
namespace Hipfire

open List

variable {α : Type}

/-- A strict total order, as a test. -/
structure TotalLt (lt : α → α → Bool) : Prop where
  irrefl : ∀ a, lt a a = false
  trans : ∀ a b c, lt a b = true → lt b c = true → lt a c = true
  tri : ∀ a b, lt a b = false → lt b a = false → a = b

/-- Insert into a strictly increasing list; an element already there stays. -/
def ordInsert (lt : α → α → Bool) (x : α) : List α → List α
  | [] => [x]
  | y :: ys => if lt x y then x :: y :: ys else if lt y x then y :: ordInsert lt x ys else y :: ys

/-- Strictly increasing. -/
def Increasing (lt : α → α → Bool) (l : List α) : Prop := l.Pairwise (fun a b => lt a b = true)

variable {lt : α → α → Bool}

theorem mem_ordInsert (h : TotalLt lt) (x y : α) : ∀ (l : List α), y ∈ ordInsert lt x l ↔ y = x ∨ y ∈ l
  | [] => by simp [ordInsert]
  | z :: zs => by
    unfold ordInsert
    by_cases h1 : lt x z = true
    · simp [h1]
    by_cases h2 : lt z x = true
    · simp only [h1, Bool.false_eq_true, if_false, h2, if_true, mem_cons, mem_ordInsert h x y zs]
      exact or_left_comm
    · have hxz : x = z := h.tri x z (by simpa using h1) (by simpa using h2)
      subst hxz
      simp [h.irrefl]

theorem increasing_ordInsert (h : TotalLt lt) (x : α) :
    ∀ (l : List α), Increasing lt l → Increasing lt (ordInsert lt x l)
  | [], _ => pairwise_singleton _ _
  | y :: ys, hl => by
    unfold ordInsert
    split
    · rename_i hxy
      refine Pairwise.cons (fun z hz => ?_) hl
      rcases mem_cons.1 hz with rfl | hz
      · exact hxy
      · exact h.trans x y z hxy (rel_of_pairwise_cons hl hz)
    · split
      · rename_i hyx
        refine Pairwise.cons (fun z hz => ?_) (increasing_ordInsert h x ys hl.of_cons)
        rcases (mem_ordInsert h x z ys).1 hz with rfl | hz
        · exact hyx
        · exact rel_of_pairwise_cons hl hz
      · exact hl

theorem foldl_ordInsert (hlt : TotalLt lt) : ∀ (l ready : List α), Increasing lt ready →
    Increasing lt (l.foldl (fun ready v => ordInsert lt v ready) ready) ∧
    ∀ u, u ∈ l.foldl (fun ready v => ordInsert lt v ready) ready ↔ u ∈ l ∨ u ∈ ready
  | [], ready, hr => ⟨hr, by simp⟩
  | v :: l, ready, hr => by
    obtain ⟨h1, h2⟩ := foldl_ordInsert hlt l (ordInsert lt v ready) (increasing_ordInsert hlt v ready hr)
    refine ⟨h1, fun u => ?_⟩
    rw [foldl_cons, h2, mem_ordInsert hlt, mem_cons]
    exact ⟨fun h => by rcases h with h | h | h <;> simp [h], fun h => by rcases h with (h | h) | h <;> simp [h]⟩

theorem Increasing.nodup (h : TotalLt lt) {l : List α} (hl : Increasing lt l) : l.Nodup :=
  hl.imp (fun {a b} hab => by
    intro heq; subst heq
    rw [h.irrefl] at hab; cases hab)

end Hipfire

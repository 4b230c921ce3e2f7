import Mathlib
/-!
# Queue — a priority queue as the list of what it holds

A binary heap is used here for one thing: `pop` answers the least entry and leaves the others.  The entries' order
inside the heap is never observed, so the model keeps a list and `popMin` picks.
-/
namespace Hipfire

open List

universe u v

section Keyed

variable {α : Type u} {κ : Type v} [LinearOrder κ] (key : α → κ)

/-- An entry with the least key and the others; nothing when the queue is empty. -/
def popKey : List α → Option (α × List α)
  | [] => none
  | x :: xs =>
    match popKey xs with
    | none => some (x, xs)
    | some (m, rest) => if key x ≤ key m then some (x, m :: rest) else some (m, x :: rest)

theorem popKey_eq_none : ∀ {q : List α}, popKey key q = none → q = []
  | [], _ => rfl
  | x :: xs, h => by
    unfold popKey at h
    split at h
    · cases h
    · split at h <;> cases h

/-- **What is popped was in the queue and its key comes no later than what stays.** -/
theorem popKey_spec : ∀ {q : List α} {m : α} {rest : List α}, popKey key q = some (m, rest) →
    q.Perm (m :: rest) ∧ ∀ x ∈ rest, key m ≤ key x
  | [], _, _, h => by cases h
  | x :: xs, m, rest, h => by
    unfold popKey at h
    split at h
    · rename_i hnone
      cases h
      rw [popKey_eq_none key hnone]
      exact ⟨Perm.refl _, nofun⟩
    · rename_i m' rest' hsome
      obtain ⟨hperm, hmin⟩ := popKey_spec hsome
      split at h
      · rename_i hle
        cases h
        refine ⟨hperm.cons x, fun y hy => ?_⟩
        rcases mem_cons.1 hy with rfl | hy
        · exact hle
        · exact hle.trans (hmin y hy)
      · rename_i hle
        cases h
        refine ⟨(hperm.cons x).trans (Perm.swap _ _ _), fun y hy => ?_⟩
        rcases mem_cons.1 hy with rfl | hy
        · exact (not_le.1 hle).le
        · exact hmin y hy

end Keyed

/-- A heap, as far as its users know which entry it gives: one of those it holds, and nothing only when it is empty. -/
structure Heap (α : Type u) where
  pop : List α → Option (α × List α)
  pop_eq_none : ∀ {q}, pop q = none → q = []
  pop_perm : ∀ {q m rest}, pop q = some (m, rest) → q.Perm (m :: rest)

def keyHeap {α : Type u} {κ : Type v} [LinearOrder κ] (key : α → κ) : Heap α where
  pop := popKey key
  pop_eq_none := popKey_eq_none key
  pop_perm h := (popKey_spec key h).1

variable {α : Type u} [LinearOrder α]

/-- The least entry and the others; nothing when the queue is empty. -/
def popMin (q : List α) : Option (α × List α) := popKey (fun x => x) q

variable {q rest : List α} {m : α}

theorem popMin_eq_none (h : popMin q = none) : q = [] := popKey_eq_none _ h

/-- **What is popped was in the queue and comes no later than what stays.** -/
theorem popMin_spec (h : popMin q = some (m, rest)) : q.Perm (m :: rest) ∧ ∀ x ∈ rest, m ≤ x :=
  popKey_spec (fun x => x) h

theorem popMin_mem (h : popMin q = some (m, rest)) : m ∈ q :=
  (popMin_spec h).1.mem_iff.2 mem_cons_self

theorem popMin_least (h : popMin q = some (m, rest)) : ∀ x ∈ q, m ≤ x := by
  obtain ⟨hperm, hmin⟩ := popMin_spec h
  intro x hx
  rcases mem_cons.1 (hperm.mem_iff.1 hx) with rfl | hx
  · exact le_rfl
  · exact hmin x hx

theorem popMin_rest {x : α} (h : popMin q = some (m, rest)) (hx : x ∈ rest) : x ∈ q :=
  (popMin_spec h).1.mem_iff.2 (mem_cons_of_mem _ hx)

theorem popMin_keeps {x : α} (h : popMin q = some (m, rest)) (hx : x ∈ q) (hne : x ≠ m) : x ∈ rest := by
  rcases mem_cons.1 ((popMin_spec h).1.mem_iff.1 hx) with rfl | hx
  · exact absurd rfl hne
  · exact hx

theorem popMin_length (h : popMin q = some (m, rest)) : q.length = rest.length + 1 := by
  rw [(popMin_spec h).1.length_eq, length_cons]

end Hipfire

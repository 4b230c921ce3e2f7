import Mathlib
/-! # Extents — what stands at a place of a list -/
namespace Hipfire

open List

universe u
variable {α : Type u}

/-- `s[pos..pos + n]`. -/
def slice (s : List α) (pos n : Nat) : List α := (s.drop pos).take n

/-- `part` stands in `s` at `pos`. -/
def At (s : List α) (pos : Nat) (part : List α) : Prop :=
  ∃ before after, s = before ++ part ++ after ∧ before.length = pos

namespace At

variable {s a b : List α} {pos : Nat}

theorem whole (s : List α) : At s 0 s := ⟨[], [], by simp, rfl⟩

variable {part : List α}

theorem slice_eq (h : At s pos part) : slice s pos part.length = part := by
  obtain ⟨before, after, rfl, rfl⟩ := h
  unfold slice
  rw [append_assoc, drop_left, take_left]

theorem slice_of_length {n : Nat} (h : At s pos part) (hn : part.length = n) : slice s pos n = part := by
  rw [← hn]
  exact h.slice_eq

theorem end_le (h : At s pos part) : pos + part.length ≤ s.length := by
  obtain ⟨before, after, rfl, rfl⟩ := h
  rw [length_append, length_append]
  omega

theorem left (h : At s pos (a ++ b)) : At s pos a := by
  obtain ⟨before, after, rfl, rfl⟩ := h
  exact ⟨before, b ++ after, by simp only [append_assoc], rfl⟩

theorem right (h : At s pos (a ++ b)) : At s (pos + a.length) b := by
  obtain ⟨before, after, rfl, rfl⟩ := h
  exact ⟨before ++ a, after, by simp only [append_assoc], length_append⟩

theorem head {x : α} (h : At s pos (x :: a)) : s[pos]? = some x := by
  obtain ⟨before, after, rfl, rfl⟩ := h
  rw [append_assoc, getElem?_append_right (Nat.le_refl _), Nat.sub_self]
  rfl

theorem slice_from (h : At s pos part) {stop : Nat} (hstop : pos + part.length ≤ stop) :
    ∃ rest, slice s pos (stop - pos) = part ++ rest := by
  obtain ⟨before, after, rfl, rfl⟩ := h
  unfold slice
  rw [append_assoc, drop_left]
  refine ⟨after.take (stop - before.length - part.length), ?_⟩
  rw [take_append, take_of_length_le (by omega)]

end At

end Hipfire

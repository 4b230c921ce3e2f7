import Mathlib
/-! # Search — the first occurrence of a pattern in a list, and what stands around it -/
namespace Hipfire

open List

variable {α : Type} [DecidableEq α]

/-- `find` of the sources: what precedes the first occurrence of `pat`, and what follows it. -/
def cutAt (pat : List α) : List α → Option (List α × List α)
  | [] => if pat = [] then some ([], []) else none
  | c :: cs =>
    if pat <+: c :: cs then some ([], (c :: cs).drop pat.length)
    else (cutAt pat cs).map fun r => (c :: r.1, r.2)

theorem cutAt_some {pat : List α} : ∀ {s before after : List α}, cutAt pat s = some (before, after) →
    s = before ++ pat ++ after ∧ ∀ u v, before = u ++ v → v ≠ [] → ¬ pat <+: v ++ pat ++ after
  | [], before, after, h => by
    simp only [cutAt] at h
    split at h
    · rename_i hpat
      obtain ⟨rfl, rfl⟩ := Prod.mk.inj (Option.some.inj h)
      exact ⟨by simp [hpat], fun u v huv hv => absurd (append_eq_nil_iff.1 huv.symm).2 hv⟩
    · exact nomatch h
  | c :: cs, before, after, h => by
    simp only [cutAt] at h
    split at h
    · rename_i hpat
      obtain ⟨rfl, rfl⟩ := Prod.mk.inj (Option.some.inj h)
      refine ⟨?_, fun u v huv hv => absurd (append_eq_nil_iff.1 huv.symm).2 hv⟩
      exact (prefix_iff_eq_append.1 hpat).symm
    · obtain ⟨⟨before', after'⟩, hcut, hr⟩ := Option.map_eq_some_iff.1 h
      obtain ⟨rfl, rfl⟩ := Prod.mk.inj hr
      obtain ⟨hs, hfirst⟩ := cutAt_some hcut
      refine ⟨by simp only [hs, cons_append], fun u v huv hv => ?_⟩
      cases u with
      | nil =>
        rw [nil_append] at huv
        rwa [← huv, cons_append, cons_append, ← hs]
      | cons x u => exact hfirst u v (cons.inj huv).2 hv

theorem cutAt_none {pat : List α} : ∀ {s : List α}, cutAt pat s = none → ∀ u v, s = u ++ v → ¬ pat <+: v
  | [], h, u, v, huv => by
    simp only [cutAt] at h
    split at h
    · exact nomatch h
    · rename_i hpat
      rw [(append_eq_nil_iff.1 huv.symm).2]
      exact fun hp => hpat (prefix_nil.1 hp)
  | c :: cs, h, u, v, huv => by
    simp only [cutAt] at h
    split at h
    · exact nomatch h
    · cases u with
      | nil => rwa [← nil_append v, ← huv]
      | cons x u => exact cutAt_none (Option.map_eq_none_iff.1 h) u v (cons.inj huv).2

theorem infix_of_cutAt_isSome {pat s : List α} (h : (cutAt pat s).isSome = true) : pat <:+: s := by
  obtain ⟨⟨before, after⟩, hcut⟩ := Option.isSome_iff_exists.1 h
  exact ⟨before, after, (cutAt_some hcut).1.symm⟩

theorem cutAt_isSome_of_append (pat u v : List α) : (cutAt pat (u ++ (pat ++ v))).isSome = true := by
  cases h : cutAt pat (u ++ (pat ++ v)) with
  | some r => rfl
  | none => exact absurd (prefix_append pat v) (cutAt_none h u _ rfl)

/-- `replace(pat, "")`, for at most `fuel` occurrences. -/
def removeLoop (pat : List α) : Nat → List α → List α
  | 0, s => s
  | fuel + 1, s =>
    match cutAt pat s with
    | some (before, after) => before ++ removeLoop pat fuel after
    | none => s

/-- `replace(pat, "")` of a non-empty pattern. -/
def removeAll (pat s : List α) : List α := removeLoop pat s.length s

/-- `strip_prefix`. -/
def stripStart (pat s : List α) : Option (List α) := if pat <+: s then some (s.drop pat.length) else none

theorem stripStart_eq_some {pat s rest : List α} : stripStart pat s = some rest ↔ s = pat ++ rest := by
  unfold stripStart
  constructor
  · intro h
    split at h
    · rename_i hp
      rw [← Option.some.inj h]
      exact (prefix_iff_eq_append.1 hp).symm
    · cases h
  · rintro rfl
    rw [if_pos (prefix_append pat rest), drop_left]

end Hipfire

import Hipfire.Base.Search
/-!
# Holdback — patterns looked for in a text that arrives in pieces

Between two pieces one keeps the longest end of the text that may still grow into a pattern.  Keeping just that loses
nothing: what the end and the next piece hold back, and the patterns they complete, are those of the whole text.
-/
namespace Hipfire

open List

variable {α : Type} (pats : List (List α))

theorem prefix_of_append_eq {a b c d : List α} (h : a ++ b = c ++ d) (hle : a.length ≤ c.length) : a <+: c :=
  prefix_of_prefix_length_le ⟨b, h⟩ ⟨d, rfl⟩ hle

/-- The beginning of a pattern that is not complete. -/
def Begun (u : List α) : Prop := ∃ p ∈ pats, u <+: p ∧ u.length < p.length

/-- `h` is the longest end of the text that begins a pattern. -/
structure Holds (text h : List α) : Prop where
  suffix : h <:+ text
  begun : h = [] ∨ Begun pats h
  longest : ∀ v, v <:+ text → Begun pats v → v.length ≤ h.length

variable {pats} {text h h' chunk : List α}

theorem Begun.of_begins {u v : List α} (hv : Begun pats v) (h : u <+: v) : Begun pats u := by
  obtain ⟨p, hp, hpre, hlt⟩ := hv
  exact ⟨p, hp, h.trans hpre, Nat.lt_of_le_of_lt h.length_le hlt⟩

theorem holds_nil : Holds pats [] [] where
  suffix := suffix_refl []
  begun := .inl rfl
  longest := fun v hv _ => by rw [suffix_nil.1 hv]

/-- An end of a joined text reaches into the first part, or not. -/
theorem suffix_append_cases {v a b : List α} (h : v <:+ a ++ b) : v <:+ b ∨ ∃ u, v = u ++ b ∧ u <:+ a := by
  by_cases hle : v.length ≤ b.length
  · exact .inl (suffix_of_suffix_length_le h (suffix_append a b) hle)
  have hb : b <:+ v := suffix_of_suffix_length_le (suffix_append a b) h (by omega)
  obtain ⟨u, rfl⟩ := hb
  obtain ⟨t, ht⟩ := h
  rw [← append_assoc] at ht
  exact .inr ⟨u, rfl, t, append_cancel_right ht⟩

/-- **What is held back after a piece depends on the end held back before it alone.** -/
theorem Holds.append (hh : Holds pats text h) (hh' : Holds pats (h ++ chunk) h') : Holds pats (text ++ chunk) h' where
  suffix := hh'.suffix.trans (by
    obtain ⟨t, rfl⟩ := hh.suffix
    rw [append_assoc]
    exact suffix_append t _)
  begun := hh'.begun
  longest := fun v hv hb => by
    refine hh'.longest v ?_ hb
    rcases suffix_append_cases hv with hv | ⟨u, rfl, hu⟩
    · exact hv.trans (suffix_append h chunk)
    · have hle := hh.longest u hu (hb.of_begins (prefix_append u chunk))
      obtain ⟨t, ht⟩ := suffix_of_suffix_length_le hu hh.suffix hle
      exact ⟨t, by rw [← append_assoc, ht]⟩

/-- **A pattern the next piece completes begins in the end held back.** -/
theorem Holds.occurrence (hh : Holds pats text h) {p a b : List α} (hp : p ∈ pats) (hno : ¬ p <:+: text)
    (heq : text ++ chunk = a ++ p ++ b) : ∃ t c, text = t ++ h ∧ a = t ++ c ∧ h ++ chunk = c ++ p ++ b := by
  obtain ⟨t, rfl⟩ := hh.suffix
  have hlen : t.length ≤ a.length := by
    by_contra hlt
    have hpre : a <+: t ++ h := by
      refine prefix_of_append_eq (b := p ++ b) (d := chunk) ?_ (by rw [length_append]; omega)
      rw [← append_assoc, heq]
    obtain ⟨w, hw⟩ := hpre
    rw [← hw, append_assoc, append_assoc, append_cancel_left_eq] at heq
    by_cases hle : p.length ≤ w.length
    · obtain ⟨w', rfl⟩ := prefix_of_append_eq heq.symm hle
      exact hno ⟨a, w', by rw [append_assoc, hw]⟩
    have hbegun : Begun pats w := by
      exact ⟨p, hp, prefix_of_append_eq heq (by omega), by omega⟩
    have hle := hh.longest w ⟨a, hw⟩ hbegun
    have hsum := congrArg length hw
    rw [length_append, length_append] at hsum
    omega
  have hpre : t <+: a := by
    refine prefix_of_append_eq (b := h ++ chunk) (d := p ++ b) ?_ hlen
    rw [← append_assoc, heq, append_assoc]
  obtain ⟨c, rfl⟩ := hpre
  refine ⟨t, c, rfl, rfl, ?_⟩
  rw [append_assoc, append_assoc, append_assoc, append_cancel_left_eq] at heq
  rw [heq, append_assoc]

/-- An end of the text that no begun pattern reaches beyond. -/
structure Covers (pats : List (List α)) (text h : List α) : Prop where
  suffix : h <:+ text
  longest : ∀ v, v <:+ text → Begun pats v → v.length ≤ h.length

/-- **Before an end that covers, no pattern begins**, whatever follows the text. -/
theorem Covers.no_match (hc : Covers pats text h) (hno : ∀ p ∈ pats, ¬ p <:+: text) {x y more p : List α}
    (htext : text = x ++ y ++ h) (hy : y ≠ []) (hp : p ∈ pats) : ¬ p <+: y ++ h ++ more := by
  rintro ⟨z, hz⟩
  by_cases hle : p.length ≤ (y ++ h).length
  · obtain ⟨d, hd⟩ := prefix_of_append_eq hz hle
    refine hno p hp ⟨x, d, ?_⟩
    rw [htext, append_assoc, hd, append_assoc]
  · have hbegun : Begun pats (y ++ h) := ⟨p, hp, prefix_of_append_eq hz.symm (by omega), by omega⟩
    have hlen := hc.longest (y ++ h) ⟨x, by rw [htext, append_assoc]⟩ hbegun
    have hpos := length_pos_of_ne_nil hy
    rw [length_append] at hlen
    omega

/-! ## The largest number that passes -/

/-- The largest `k ≤ n` other than zero that satisfies `p`, else zero. -/
def findDown (p : Nat → Bool) : Nat → Nat
  | 0 => 0
  | k + 1 => if p (k + 1) then k + 1 else findDown p k

theorem findDown_le (p : Nat → Bool) : ∀ n, findDown p n ≤ n
  | 0 => Nat.le_refl 0
  | n + 1 => by
    unfold findDown
    split
    · exact le_rfl
    · exact Nat.le_succ_of_le (findDown_le p n)

theorem findDown_found (p : Nat → Bool) : ∀ n, findDown p n = 0 ∨ p (findDown p n) = true
  | 0 => .inl rfl
  | n + 1 => by
    unfold findDown
    split
    · rename_i h
      exact .inr h
    · exact findDown_found p n

/-- Nothing larger is passed over. -/
theorem le_findDown {p : Nat → Bool} {k : Nat} (hk : p k = true) : ∀ {n}, k ≤ n → k ≠ 0 → k ≤ findDown p n
  | 0, hle, hne => absurd (Nat.le_zero.1 hle) hne
  | n + 1, hle, hne => by
    unfold findDown
    split
    · exact hle
    · rename_i hp
      refine le_findDown hk (Nat.lt_succ_iff.1 (Nat.lt_of_le_of_ne hle ?_)) hne
      rintro rfl
      exact hp hk

/-! ## The earliest of several patterns -/

variable [DecidableEq α]

/-- `find`: where the first occurrence begins. -/
def findAt (pat s : List α) : Option Nat := (cutAt pat s).map fun r => r.1.length

/-- Where the first of several patterns begins. -/
def earliest (pats : List (List α)) (s : List α) : Option Nat := (pats.filterMap fun p => findAt p s).min?

theorem findAt_some {pat s : List α} {i : Nat} (h : findAt pat s = some i) :
    ∃ a b, s = a ++ pat ++ b ∧ a.length = i := by
  obtain ⟨⟨a, b⟩, hcut, rfl⟩ := Option.map_eq_some_iff.1 h
  exact ⟨a, b, (cutAt_some hcut).1, rfl⟩

theorem findAt_le (pat a b : List α) : ∃ i, findAt pat (a ++ pat ++ b) = some i ∧ i ≤ a.length := by
  unfold findAt
  cases hcut : cutAt pat (a ++ pat ++ b) with
  | none =>
    exact absurd (prefix_append pat b) (cutAt_none hcut a (pat ++ b) (append_assoc _ _ _))
  | some r =>
    obtain ⟨before, after⟩ := r
    refine ⟨_, rfl, ?_⟩
    obtain ⟨heq, hfirst⟩ := cutAt_some hcut
    by_contra hlt
    rw [Nat.not_le] at hlt
    dsimp only at hlt
    have hpre : a <+: before := by
      refine prefix_of_append_eq (b := pat ++ b) (d := pat ++ after) ?_ (by omega)
      rw [← append_assoc, heq, append_assoc]
    obtain ⟨v, rfl⟩ := hpre
    have hv : v ≠ [] := by
      rintro rfl
      rw [append_nil] at hlt
      exact Nat.lt_irrefl _ hlt
    refine hfirst a v rfl hv ?_
    rw [append_assoc, append_assoc, append_assoc, append_cancel_left_eq] at heq
    rw [append_assoc, ← heq]
    exact prefix_append pat b

/-- **What `earliest` finds is an occurrence, and none begins before it.** -/
theorem earliest_some {s : List α} {i : Nat} (h : earliest pats s = some i) :
    (∃ p ∈ pats, ∃ a b, s = a ++ p ++ b ∧ a.length = i) ∧ ∀ p ∈ pats, ∀ a b, s = a ++ p ++ b → i ≤ a.length := by
  obtain ⟨hmem, hmin⟩ := min?_eq_some_iff.1 h
  refine ⟨?_, fun p hp a b heq => ?_⟩
  · obtain ⟨p, hp, hfind⟩ := mem_filterMap.1 hmem
    exact ⟨p, hp, findAt_some hfind⟩
  · obtain ⟨j, hj, hle⟩ := findAt_le p a b
    rw [← heq] at hj
    exact (hmin j (mem_filterMap.2 ⟨p, hp, hj⟩)).trans hle

theorem earliest_none {s : List α} : earliest pats s = none ↔ ∀ p ∈ pats, ¬ p <:+: s := by
  unfold earliest
  rw [min?_eq_none_iff, filterMap_eq_nil_iff]
  refine forall₂_congr fun p _ => ?_
  constructor
  · rintro h ⟨a, b, rfl⟩
    obtain ⟨i, hi, -⟩ := findAt_le p a b
    cases h.symm.trans hi
  · intro hno
    cases hf : findAt p s with
    | none => rfl
    | some i =>
      obtain ⟨a, b, heq, -⟩ := findAt_some hf
      exact absurd ⟨a, b, heq.symm⟩ hno

end Hipfire

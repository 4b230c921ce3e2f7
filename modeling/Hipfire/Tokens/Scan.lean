import Hipfire.Tokens.Bpe
/-!
# Scan — what the naive merge finds and leaves

`lowestPair` is described by its place among all pairs that have a rank, which is what the heap's order is compared with;
`naive_eq` unfolds one scan, and past the last scan no pair has a rank.
-/
namespace Hipfire.Tokens

open List

variable {p q : List Nat} {x y : Nat}

theorem pair_cons {rest : List Nat} {x' y' : Nat} (h : x :: y :: rest = p ++ x' :: y' :: q) :
    (p = [] ∧ x' = x ∧ y' = y) ∨ ∃ p', p = x :: p' ∧ y :: rest = p' ++ x' :: y' :: q := by
  cases p with
  | nil =>
    simp only [nil_append, cons.injEq] at h
    exact .inl ⟨rfl, h.1.symm, h.2.1.symm⟩
  | cons z p' =>
    simp only [cons_append, cons.injEq] at h
    exact .inr ⟨p', by rw [h.1], h.2⟩

variable {t : MergeTable}

theorem lowestPair_none : ∀ {syms : List Nat}, lowestPair t syms = none →
    ∀ {p x y q}, syms = p ++ x :: y :: q → t.rank x y = none
  | [], _, p, _, _, _, h => by cases p <;> cases h
  | [_], _, p, _, _, _, h => by cases p <;> simp at h
  | x :: y :: rest, hnone, p, x', y', q, h => by
    unfold lowestPair at hnone
    split at hnone
    · rename_i hxy hrest
      rcases pair_cons h with ⟨-, rfl, rfl⟩ | ⟨p', -, h⟩
      · exact hxy
      · exact lowestPair_none hrest h
    · cases hnone
    · cases hnone
    · split at hnone <;> cases hnone

/-- **The lowest pair, by what it is**: it has its rank, and every pair with a rank has a higher one or stands no
further left. -/
theorem lowestPair_some : ∀ {syms : List Nat} {r k : Nat}, lowestPair t syms = some (r, k) →
    (∃ p x y q, syms = p ++ x :: y :: q ∧ p.length = k ∧ t.rank x y = some r) ∧
    ∀ {p x y q r'}, syms = p ++ x :: y :: q → t.rank x y = some r' → r < r' ∨ r = r' ∧ k ≤ p.length
  | [], _, _, h => by cases h
  | [_], _, _, h => by cases h
  | x :: y :: rest, r, k, h => by
    unfold lowestPair at h
    split at h
    · cases h
    · rename_i r' k' hxy hrest
      cases h
      obtain ⟨⟨p, x', y', q, hp, hk, hr⟩, hleast⟩ := lowestPair_some hrest
      refine ⟨⟨x :: p, x', y', q, by rw [hp]; rfl, by simp [hk], hr⟩, fun {p} {x'} {y'} {q} {r'} hc hr' => ?_⟩
      rcases pair_cons hc with ⟨-, rfl, rfl⟩ | ⟨p', rfl, hc'⟩
      · cases hxy.symm.trans hr'
      · have := hleast hc' hr'
        rw [length_cons]
        omega
    · rename_i r₁ hxy hrest
      cases h
      refine ⟨⟨[], x, y, rest, rfl, rfl, hxy⟩, fun {p} {x'} {y'} {q} {r'} hc hr' => ?_⟩
      rcases pair_cons hc with ⟨-, rfl, rfl⟩ | ⟨p', rfl, hc'⟩
      · cases hxy.symm.trans hr'
        exact .inr ⟨rfl, Nat.zero_le _⟩
      · rw [lowestPair_none hrest hc'] at hr'
        cases hr'
    · rename_i r₁ r₂ k₂ hxy hrest
      obtain ⟨⟨p, x', y', q, hp, hk, hr⟩, hleast⟩ := lowestPair_some hrest
      split at h
      · cases h
        refine ⟨⟨[], x, y, rest, rfl, rfl, hxy⟩, fun {p} {x'} {y'} {q} {r'} hc hr' => ?_⟩
        rcases pair_cons hc with ⟨-, rfl, rfl⟩ | ⟨p', rfl, hc'⟩
        · cases hxy.symm.trans hr'
          exact .inr ⟨rfl, Nat.zero_le _⟩
        · have := hleast hc' hr'
          omega
      · rename_i hle
        cases h
        refine ⟨⟨x :: p, x', y', q, by rw [hp]; rfl, by simp [hk], hr⟩, fun {p} {x'} {y'} {q} {r'} hc hr' => ?_⟩
        rcases pair_cons hc with ⟨-, rfl, rfl⟩ | ⟨p', rfl, hc'⟩
        · cases hxy.symm.trans hr'
          exact .inl (Nat.lt_of_not_le hle)
        · have := hleast hc' hr'
          rw [length_cons]
          omega

theorem lowestPair_unique {r : Nat} (hr : t.rank x y = some r)
    (hleast : ∀ {p' x' y' q' r'}, p ++ x :: y :: q = p' ++ x' :: y' :: q' → t.rank x' y' = some r' →
      r < r' ∨ r = r' ∧ p.length ≤ p'.length) :
    lowestPair t (p ++ x :: y :: q) = some (r, p.length) := by
  cases hlow : lowestPair t (p ++ x :: y :: q) with
  | none =>
    rw [lowestPair_none hlow rfl] at hr
    cases hr
  | some found =>
    obtain ⟨⟨p', x', y', q', hp', hk, hr'⟩, hleast'⟩ := lowestPair_some hlow
    have h1 := hleast hp' hr'
    have h2 := hleast' rfl hr
    rw [Option.some.injEq, Prod.mk.injEq]
    omega

/-- Past the last scan nothing is mergeable, so more scans change nothing. -/
theorem naiveLoop_of_none {syms : List Nat} (h : lowestPair t syms = none) : ∀ fuel, naiveLoop t fuel syms = syms
  | 0 => rfl
  | fuel + 1 => by rw [naiveLoop, h]

theorem length_replacePair {syms : List Nat} {r k : Nat} (h : lowestPair t syms = some (r, k)) (x : Nat) :
    (replacePair x k syms).length + 1 = syms.length := by
  obtain ⟨⟨p, a, b, q, hp, rfl, -⟩, -⟩ := lowestPair_some h
  rw [hp]
  simp [replacePair, drop_append, drop_eq_nil_of_le]
  omega

theorem naive_eq (t : MergeTable) (syms : List Nat) : naive t syms = match lowestPair t syms with
      | none => syms
      | some (r, p) => naive t (replacePair (t.merged r) p syms) := by
  cases hlow : lowestPair t syms with
  | none => exact naiveLoop_of_none hlow _
  | some found =>
    obtain ⟨r, k⟩ := found
    have hlen := length_replacePair hlow (t.merged r)
    show naiveLoop t syms.length syms = naiveLoop t (replacePair (t.merged r) k syms).length (replacePair (t.merged r) k syms)
    rw [← hlen, naiveLoop, hlow]

theorem naiveLoop_done (t : MergeTable) : ∀ (fuel : Nat) (syms : List Nat), syms.length ≤ fuel →
    lowestPair t (naiveLoop t fuel syms) = none
  | 0, syms, h => by
    rw [length_eq_zero_iff.1 (Nat.le_zero.1 h)]
    rfl
  | fuel + 1, syms, h => by
    unfold naiveLoop
    split
    · rename_i hnone
      exact hnone
    · rename_i r k hsome
      have := length_replacePair hsome (t.merged r)
      exact naiveLoop_done t fuel _ (by omega)

end Hipfire.Tokens

import Mathlib
/-!
# Cells — values stored through an address map

A run of values is stored at consecutive positions, each at the address that a partial map gives for the position.
-/
namespace Hipfire

variable {α V : Type} [DecidableEq α]

/-- Store a value at an address, if there is one. -/
def storeAt (mem : α → V) : Option α → V → α → V
  | none, _ => mem
  | some a, v => Function.update mem a v

/-- Store values at the positions from `i` on. -/
def storeRun (addr : Nat → Option α) : Nat → List V → (α → V) → α → V
  | _, [], mem => mem
  | i, v :: vs, mem => storeRun addr (i + 1) vs (storeAt mem (addr i) v)

theorem storeAt_of_ne {mem : α → V} {a : α} {o : Option α} (h : o ≠ some a) (v : V) : storeAt mem o v a = mem a := by
  cases o with
  | none => rfl
  | some b => exact Function.update_of_ne (fun hab => h (congrArg some hab.symm)) v mem

variable {addr : Nat → Option α}

theorem storeRun_of_not_hit {a : α} : ∀ {i : Nat} {vs : List V} {mem : α → V},
    (∀ j, i ≤ j → j < i + vs.length → addr j ≠ some a) → storeRun addr i vs mem a = mem a
  | _, [], _, _ => rfl
  | i, v :: vs, mem, h => by
    have hhead : addr i ≠ some a := h i (Nat.le_refl i) (by simp)
    have htail : storeRun addr (i + 1) vs (storeAt mem (addr i) v) a = storeAt mem (addr i) v a :=
      storeRun_of_not_hit (fun j hle hlt => h j (by omega) (by simp only [List.length_cons]; omega))
    exact htail.trans (storeAt_of_ne hhead v)

/-- **The address of one position of the run** holds the value for that position. -/
theorem storeRun_of_hit {a : α} {j : Nat} (haddr : addr j = some a) :
    ∀ {i : Nat} {vs : List V} {mem : α → V}, i ≤ j → j < i + vs.length →
    (∀ j', i ≤ j' → j' < i + vs.length → addr j' = some a → j' = j) → vs[j - i]? = some (storeRun addr i vs mem a)
  | i, [], _, hle, hlt, _ => absurd hlt (by simp only [List.length_nil]; omega)
  | i, v :: vs, mem, hle, hlt, honly => by
    rw [List.length_cons] at hlt honly
    by_cases hij : i = j
    · -- the later positions have other addresses
      subst hij
      have hrest : storeRun addr (i + 1) vs (storeAt mem (addr i) v) a = storeAt mem (addr i) v a :=
        storeRun_of_not_hit (fun j' hle' hlt' ha => absurd (honly j' (by omega) (by omega) ha) (by omega))
      rw [Nat.sub_self, List.getElem?_cons_zero]
      show some v = some (storeRun addr (i + 1) vs (storeAt mem (addr i) v) a)
      rw [hrest, haddr]
      exact congrArg some (Function.update_self a v mem).symm
    · have hrest : vs[j - (i + 1)]? = some (storeRun addr (i + 1) vs (storeAt mem (addr i) v) a) :=
        storeRun_of_hit haddr (by omega) (by omega) (fun j' hle' hlt' => honly j' (by omega) (by omega))
      have hsub : j - i = j - (i + 1) + 1 := by omega
      rw [hsub, List.getElem?_cons_succ]
      exact hrest

end Hipfire

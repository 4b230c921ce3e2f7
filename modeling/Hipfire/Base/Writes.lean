import Mathlib
/-!
# Writes — a list of writes to a memory

A copy is the list of its single writes; these are the two ways a byte is known after all of them: no other write hit
it, or every write carried the right value.
-/
namespace Hipfire

open List

universe u v
variable {A : Type u} {V : Type v} [DecidableEq A]

/-- The memory after the writes, in order. -/
def writeAll : List (A × V) → (A → V) → A → V
  | [], mem => mem
  | (a, v) :: ws, mem => writeAll ws (Function.update mem a v)

theorem writeAll_of_not_mem {a : A} : ∀ {ws : List (A × V)} {mem : A → V}, a ∉ ws.map Prod.fst → writeAll ws mem a = mem a
  | [], _, _ => rfl
  | (b, v) :: ws, mem, h => by
    rw [map_cons, mem_cons, not_or] at h
    rw [writeAll, writeAll_of_not_mem h.2, Function.update_of_ne h.1]

/-- **A byte written once holds what was written.** -/
theorem writeAll_of_nodup {a : A} {v : V} : ∀ {ws : List (A × V)} {mem : A → V}, (ws.map Prod.fst).Nodup → (a, v) ∈ ws →
    writeAll ws mem a = v
  | (b, w) :: ws, mem, hnd, h => by
    rw [map_cons, nodup_cons] at hnd
    rw [writeAll]
    rcases mem_cons.1 h with heq | h
    · cases heq
      rw [writeAll_of_not_mem hnd.1, Function.update_self]
    · exact writeAll_of_nodup hnd.2 h

/-- **When every write carries the value of `f`, a written byte holds it**, however often it is written. -/
theorem writeAll_of_forall {f : A → V} {a : A} : ∀ {ws : List (A × V)} {mem : A → V}, (∀ w ∈ ws, w.2 = f w.1) →
    a ∈ ws.map Prod.fst → writeAll ws mem a = f a
  | (b, w) :: ws, mem, hf, ha => by
    have hrest : ∀ w ∈ ws, w.2 = f w.1 := (forall_mem_cons.1 hf).2
    rw [writeAll]
    by_cases hmem : a ∈ ws.map Prod.fst
    · exact writeAll_of_forall hrest hmem
    · rw [map_cons, mem_cons, or_iff_left hmem] at ha
      subst ha
      rw [writeAll_of_not_mem hmem, Function.update_self]
      exact hf (a, w) mem_cons_self

end Hipfire

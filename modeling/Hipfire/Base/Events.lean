import Mathlib
/-!
# Events — work on several streams, ordered by records and waits

Each stream runs its work in order, and a wait ends no sooner than the record it is bound to.  Times are of any preorder.
-/
namespace Hipfire

universe u v w
variable {ρ : Type u} {α : Type v} {τ : Type w} [Preorder τ]

/-- Times at which the work of the streams starts and finishes; `bound` is the record, by stream and position, that a wait
waits for. -/
structure Respects (streams : ρ → List α) (bound : α → Option (ρ × Nat)) (start finish : ρ → Nat → τ) : Prop where
  runs : ∀ r i, i < (streams r).length → start r i ≤ finish r i
  order : ∀ r i j, i < j → j < (streams r).length → finish r i ≤ start r j
  waits : ∀ (r : ρ) (i : Nat) (op : α) (q : ρ) (m : Nat), (streams r)[i]? = some op → bound op = some (q, m) →
    finish q m ≤ finish r i

/-- **Work before a record is done before work after a wait for it.** -/
theorem Respects.through {streams : ρ → List α} {bound : α → Option (ρ × Nat)} {start finish : ρ → Nat → τ}
    (h : Respects streams bound start finish) {q r : ρ} {j m i k : Nat} {op : α} (hjm : j < m)
    (hm : m < (streams q).length) (hop : (streams r)[i]? = some op) (hbound : bound op = some (q, m)) (hik : i < k)
    (hk : k < (streams r).length) : finish q j ≤ start r k :=
  calc finish q j ≤ start q m := h.order q j m hjm hm
    _ ≤ finish q m := h.runs q m hm
    _ ≤ finish r i := h.waits r i op q m hop hbound
    _ ≤ start r k := h.order r i k hik hk

end Hipfire

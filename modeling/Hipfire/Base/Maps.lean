import Mathlib
/-!
# Maps — association lists as maps: an entry changed in place, and sums over the values

`modify` is `get_mut` with an update; `total f` adds up `f` over the values, so that the size of a map, or any weight of
what it holds, moves by the entries that were inserted, changed and erased.
-/
namespace Hipfire.Maps

variable {α β : Type} [DecidableEq α]

/-- Change the entry of a key, if there is one. -/
def modify (k : α) (g : β → β) (s : AList (fun _ : α => β)) : AList (fun _ : α => β) :=
  match s.lookup k with
  | none => s
  | some v => s.insert k (g v)

variable {s t : AList (fun _ : α => β)} {k k' : α} {v v' : β} {f : β → Nat} {g : β → β}

theorem lookup_insert (s : AList (fun _ : α => β)) (k a : α) (v : β) :
    (s.insert k v).lookup a = if a = k then some v else s.lookup a := by
  by_cases h : a = k
  · subst h; rw [if_pos rfl, AList.lookup_insert]
  · rw [if_neg h, AList.lookup_insert_ne h]

theorem lookup_erase (s : AList (fun _ : α => β)) (k a : α) :
    (s.erase k).lookup a = if a = k then none else s.lookup a := by
  by_cases h : a = k
  · subst h; rw [if_pos rfl, AList.lookup_erase]
  · rw [if_neg h, AList.lookup_erase_ne h]

theorem lookup_modify (s : AList (fun _ : α => β)) (k a : α) (g : β → β) :
    (modify k g s).lookup a = if a = k then (s.lookup k).map g else s.lookup a := by
  unfold modify
  cases h : s.lookup k with
  | none =>
    by_cases ha : a = k
    · subst ha; rw [if_pos rfl, h]; rfl
    · rw [if_neg ha]
  | some v =>
    by_cases ha : a = k
    · subst ha; rw [if_pos rfl, AList.lookup_insert]; rfl
    · rw [if_neg ha, AList.lookup_insert_ne ha]

/-! ## Sums over the values -/

/-- The sum of `f` over the values. -/
def total (f : β → Nat) (s : AList (fun _ : α => β)) : Nat := (s.entries.map (fun e => f e.2)).sum

theorem perm_of_lookup (h : ∀ a, s.lookup a = t.lookup a) : s.entries.Perm t.entries :=
  List.lookup_ext s.nodupKeys t.nodupKeys (fun a b => by
    have := h a
    simp only [AList.lookup] at this
    rw [this])

variable (f : β → Nat)

/-- **Maps with the same entries have the same sums.** -/
theorem total_congr (h : ∀ a, s.lookup a = t.lookup a) : total f s = total f t :=
  ((perm_of_lookup h).map _).sum_eq

theorem total_insert_new (h : s.lookup k = none) (v : β) : total f (s.insert k v) = total f s + f v := by
  unfold total
  rw [AList.entries_insert_of_notMem (AList.lookup_eq_none.1 h), List.map_cons, List.sum_cons, Nat.add_comm]

/-- **An entry and the others.** -/
theorem perm_erase (h : s.lookup k = some v) : s.entries.Perm (⟨k, v⟩ :: (s.erase k).entries) := by
  have hback : s.entries.Perm ((s.erase k).insert k v).entries := by
    refine perm_of_lookup (fun a => ?_)
    rw [lookup_insert, lookup_erase]
    by_cases ha : a = k
    · subst ha; rw [if_pos rfl, h]
    · rw [if_neg ha, if_neg ha]
  rwa [AList.entries_insert_of_notMem (AList.lookup_eq_none.1 (AList.lookup_erase k s))] at hback

theorem total_erase (h : s.lookup k = some v) : total f (s.erase k) + f v = total f s := by
  unfold total
  rw [((perm_erase h).map fun e => f e.2).sum_eq, List.map_cons, List.sum_cons, Nat.add_comm]

theorem total_insert_old (h : s.lookup k = some v) (v' : β) : total f (s.insert k v') + f v = total f s + f v' := by
  have hback : total f (s.insert k v') = total f ((s.erase k).insert k v') := by
    refine total_congr f (fun a => ?_)
    rw [lookup_insert, lookup_insert, lookup_erase]
    split <;> rfl
  rw [hback, total_insert_new f (AList.lookup_erase k s), ← total_erase f h]
  omega

theorem total_modify (hg : ∀ v, f (g v) = f v) : total f (modify k g s) = total f s := by
  unfold modify
  cases h : s.lookup k with
  | none => rfl
  | some v =>
    have := total_insert_old f h (g v)
    rw [hg v] at this
    exact Nat.add_right_cancel this

end Hipfire.Maps

import Mathlib
/-! # Lists — updates at an index and their sums -/
namespace Hipfire

open List

variable {α : Type}

theorem lt_of_getElem? {l : List α} {i : Nat} {a : α} (h : l[i]? = some a) : i < l.length :=
  (List.getElem?_eq_some_iff.1 h).1

theorem getElem?_concat {l : List α} {w v : α} {i : Nat} (h : (l ++ [w])[i]? = some v) :
    l[i]? = some v ∨ i = l.length ∧ v = w := by
  by_cases hi : i < l.length
  · rw [getElem?_append_left hi] at h
    exact .inl h
  rw [getElem?_append_right (Nat.not_lt.1 hi)] at h
  obtain ⟨hzero, hv⟩ := List.getElem?_eq_some_iff.1 h
  simp only [length_singleton] at hzero
  simp only [getElem_singleton] at hv
  exact .inr ⟨by omega, hv.symm⟩

theorem getElem?_append_of_some {l : List α} {v : α} {i : Nat} (h : l[i]? = some v) (more : List α) :
    (l ++ more)[i]? = some v := by
  rw [getElem?_append_left (lt_of_getElem? h), h]

theorem getD_set (l : List α) (i j : Nat) (v d : α) :
    (l.set i v).getD j d = if i = j ∧ i < l.length then v else l.getD j d := by
  by_cases hij : i = j
  · subst hij
    by_cases hi : i < l.length
    · simp [hi]
    · simp [hi]
  · simp [hij]

theorem map_getD_range (l : List α) (d : α) : (range l.length).map (fun i => l.getD i d) = l :=
  ext_getElem (by simp) fun i _ h => by simp [h]

theorem getD_mem (l : List α) (i : Nat) (d : α) (h : i < l.length) : l.getD i d ∈ l := by
  rw [getD_eq_getElem?_getD, getElem?_eq_getElem h]
  exact getElem_mem h

theorem sum_set_le : ∀ (l : List Nat) (i v : Nat), (l.set i v).sum ≤ l.sum + v
  | [], _, _ => by simp
  | x :: l, 0, v => by simp only [set_cons_zero, sum_cons]; omega
  | x :: l, i + 1, v => by
    have := sum_set_le l i v
    simp only [set_cons_succ, sum_cons]; omega

theorem sum_set_add_le : ∀ (l : List Nat) (i t : Nat), (l.set i (l.getD i 0 + t)).sum ≤ l.sum + t
  | [], _, _ => by simp
  | x :: l, 0, t => by simp only [getD_cons_zero, set_cons_zero, sum_cons]; omega
  | x :: l, i + 1, t => by
    have := sum_set_add_le l i t
    simp only [getD_cons_succ, set_cons_succ, sum_cons]; omega

/-! ## Concatenations over a range -/

theorem flatMap_range_succ (f : Nat → List α) (n : Nat) : (range (n + 1)).flatMap f = (range n).flatMap f ++ f n := by
  rw [range_succ, flatMap_append, flatMap_singleton]

/-- Where the `k`-th block of a concatenation starts. -/
def blockStart {α : Type} (f : Nat → List α) (k : Nat) : Nat := ((range k).flatMap f).length

theorem blockStart_succ (f : Nat → List α) (k : Nat) : blockStart f (k + 1) = blockStart f k + (f k).length := by
  unfold blockStart
  rw [flatMap_range_succ, length_append]

theorem blockStart_mono (f : Nat → List α) {j k : Nat} (h : j ≤ k) : blockStart f j ≤ blockStart f k := by
  induction h with
  | refl => exact Nat.le_refl _
  | step _ ih => rw [blockStart_succ]; omega

/-- The concatenation, read at a place inside one of its blocks. -/
theorem getElem?_flatMap_range (f : Nat → List α) {n k m : Nat} (hk : k < n) (hm : m < (f k).length) :
    ((range n).flatMap f)[blockStart f k + m]? = (f k)[m]? := by
  induction n with
  | zero => omega
  | succ n ih =>
    rw [flatMap_range_succ]
    rcases Nat.lt_or_ge k n with h | h
    · have hlt : blockStart f k + m < ((range n).flatMap f).length := by
        have := blockStart_mono f (Nat.succ_le_of_lt h)
        rw [Nat.succ_eq_add_one, blockStart_succ] at this
        unfold blockStart at this ⊢
        omega
      rw [getElem?_append_left hlt, ih h]
    · have hkn : k = n := by omega
      subst hkn
      unfold blockStart
      rw [getElem?_append_right (by omega), Nat.add_sub_cancel_left]

/-- Every place of the concatenation is inside one of its blocks. -/
theorem exists_block (f : Nat → List α) : ∀ (n i : Nat), i < ((range n).flatMap f).length →
    ∃ k < n, ∃ m < (f k).length, i = blockStart f k + m
  | 0, i, h => by simp at h
  | n + 1, i, h => by
    rw [flatMap_range_succ, length_append] at h
    rcases Nat.lt_or_ge i ((range n).flatMap f).length with hi | hi
    · obtain ⟨k, hk, m, hm, he⟩ := exists_block f n i hi
      exact ⟨k, by omega, m, hm, he⟩
    · exact ⟨n, by omega, i - ((range n).flatMap f).length, by omega, by unfold blockStart; omega⟩

/-- A concatenation of concatenations, counted through. -/
theorem flatMap_range_mul (f : Nat → List α) (p : Nat) : ∀ (n : Nat),
    (range n).flatMap (fun t => (range p).flatMap (fun k => f (t * p + k))) = (range (n * p)).flatMap f
  | 0 => by simp
  | n + 1 => by
    rw [flatMap_range_succ, flatMap_range_mul f p n, Nat.add_mul, Nat.one_mul, range_add, flatMap_append,
      flatMap_map]

/-! ## Ragged arrays: a flat list cut by the lengths of its segments -/

/-- The `i`-th segment of `xs`, cut by the lengths `m`. -/
def segment {α : Type} (m : List Nat) (xs : List α) (i : Nat) : List α :=
  (xs.drop (m.take i).sum).take (m.getD i 0)

theorem segment_zero (a : Nat) (m : List Nat) (x ys : List α) (h : x.length = a) :
    segment (a :: m) (x ++ ys) 0 = x := by
  simp [segment, ← h]

theorem segment_succ (a : Nat) (m : List Nat) (x ys : List α) (i : Nat) (h : x.length = a) :
    segment (a :: m) (x ++ ys) (i + 1) = segment m ys i := by
  simp [segment, ← h]

/-- **The segments, in order, are the whole list**, once the lengths add up to it. -/
theorem flatMap_segment : ∀ (m : List Nat) (xs : List α), m.sum = xs.length →
    (range m.length).flatMap (segment m xs) = xs
  | [], xs, h => by
    have : xs = [] := length_eq_zero_iff.1 h.symm
    simp [this]
  | a :: m, xs, h => by
    rw [sum_cons] at h
    have ha : (xs.take a).length = a := by rw [length_take]; omega
    have hcut : segment (a :: m) xs = segment (a :: m) (xs.take a ++ xs.drop a) := by rw [take_append_drop]
    have hrest : (fun i => segment (a :: m) (xs.take a ++ xs.drop a) (Nat.succ i)) = segment m (xs.drop a) :=
      funext fun i => segment_succ a m _ _ i ha
    rw [hcut, length_cons, range_succ_eq_map, flatMap_cons, flatMap_map, segment_zero a m _ _ ha,
      hrest, flatMap_segment m (xs.drop a) (by rw [length_drop]; omega), take_append_drop]

theorem le_foldl_max : ∀ (l : List Nat) (a : Nat), a ≤ l.foldl max a ∧ ∀ x ∈ l, x ≤ l.foldl max a
  | [], a => ⟨Nat.le_refl a, by simp⟩
  | y :: l, a => by
    obtain ⟨h1, h2⟩ := le_foldl_max l (max a y)
    rw [foldl_cons]
    refine ⟨by omega, fun x hx => ?_⟩
    rcases mem_cons.1 hx with rfl | hx
    · omega
    · exact h2 x hx

theorem foldl_max_le {b : Nat} : ∀ (l : List Nat) (a : Nat), a ≤ b → (∀ x ∈ l, x ≤ b) → l.foldl max a ≤ b
  | [], _, ha, _ => ha
  | y :: l, a, ha, hl => foldl_max_le l (max a y) (by have := hl y (by simp); omega)
      (forall_mem_cons.1 hl).2

theorem getD_le {b : Nat} (l : List Nat) (hl : ∀ x ∈ l, x ≤ b) (i : Nat) : l.getD i 0 ≤ b := by
  rw [getD_eq_getElem?_getD]
  cases h : l[i]? with
  | none => simp
  | some x => simpa using hl x (mem_of_getElem? h)

theorem set_le {b : Nat} {l : List Nat} (hl : ∀ x ∈ l, x ≤ b) (i : Nat) {v : Nat} (hv : v ≤ b) : ∀ x ∈ l.set i v, x ≤ b :=
  fun x hx => by
    rcases mem_or_eq_of_mem_set hx with hx | rfl
    · exact hl x hx
    · exact hv

/-- **Two cuts of one list**: the first falls before the second, on it, or after it. -/
theorem cut_cases {a a' b b' : List α} {i l : α} (h : a' ++ i :: b' = a ++ l :: b) :
    (∃ c, a = a' ++ i :: c ∧ b' = c ++ l :: b) ∨ (a' = a ∧ i = l ∧ b' = b) ∨ ∃ c, a' = a ++ l :: c ∧ b = c ++ i :: b' := by
  rcases append_eq_append_iff.1 h with ⟨c, ha, hb⟩ | ⟨c, ha, hb⟩
  · cases c with
    | nil =>
      rw [nil_append, cons.injEq] at hb
      exact .inr (.inl ⟨by simpa using ha.symm, hb.1, hb.2⟩)
    | cons x c =>
      obtain ⟨rfl, rfl⟩ := hb
      exact .inl ⟨c, ha, rfl⟩
  · cases c with
    | nil =>
      rw [nil_append, cons.injEq] at hb
      exact .inr (.inl ⟨by simpa using ha, hb.1.symm, hb.2.symm⟩)
    | cons x c =>
      obtain ⟨rfl, rfl⟩ := hb
      exact .inr (.inr ⟨c, ha, rfl⟩)

end Hipfire

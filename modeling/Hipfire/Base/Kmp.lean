import Mathlib
/-!
# Kmp — matching one pattern against a stream, one symbol at a time

The state of the matcher is the length of the longest beginning of the pattern that ends the stream read so far
(`Tracks`).  One step keeps it, given a table of the pattern's borders.
-/
namespace Hipfire

open List

variable {α : Type}

/-- `fail[s]` is the longest beginning of the pattern, shorter than `s + 1`, that ends its first `s + 1` symbols. -/
def BorderTable (pat : List α) (fail : List Nat) : Prop :=
  ∀ s < pat.length, fail.getD s 0 < s + 1 ∧ pat.take (fail.getD s 0) <:+ pat.take (s + 1) ∧
    ∀ k < s + 1, pat.take k <:+ pat.take (s + 1) → k ≤ fail.getD s 0

/-- `s` is the length of the longest beginning of the pattern that ends the stream `seg`. -/
structure Tracks (pat seg : List α) (s : Nat) : Prop where
  le : s ≤ pat.length
  ends : pat.take s <:+ seg
  longest : ∀ k ≤ pat.length, pat.take k <:+ seg → k ≤ s

theorem tracks_nil (pat : List α) : Tracks pat [] 0 where
  le := Nat.zero_le _
  ends := nil_suffix
  longest k hk h := by
    have hnil := suffix_nil.1 h
    have hlen := congrArg length hnil
    rw [length_take, length_nil] at hlen
    omega

theorem suffix_concat_iff (l₁ l₂ : List α) (a b : α) : l₁ ++ [a] <:+ l₂ ++ [b] ↔ l₁ <:+ l₂ ∧ a = b := by
  constructor
  · rintro ⟨t, ht⟩
    rw [← append_assoc] at ht
    obtain ⟨h1, h2⟩ := append_inj' ht rfl
    exact ⟨⟨t, h1⟩, singleton_inj.1 h2⟩
  · rintro ⟨⟨t, rfl⟩, rfl⟩
    exact ⟨t, by rw [append_assoc]⟩

variable {pat seg : List α} {b : α}

/-- The beginnings that end the stream after one more symbol are those that ended it, longer by that symbol. -/
theorem take_succ_suffix_concat {j : Nat} (hj : j < pat.length) :
    pat.take (j + 1) <:+ seg ++ [b] ↔ pat.take j <:+ seg ∧ pat[j]? = some b := by
  rw [take_succ_eq_append_getElem hj, suffix_concat_iff, getElem?_eq_getElem hj, Option.some.injEq]

theorem Tracks.complete_iff {s : Nat} (h : Tracks pat seg s) : s = pat.length ↔ pat <:+ seg := by
  constructor
  · rintro rfl
    have := h.ends
    rwa [take_length] at this
  · intro hsuf
    refine Nat.le_antisymm h.le (h.longest _ le_rfl ?_)
    rwa [take_length]

theorem Tracks.step_le {s s' : Nat} (h : Tracks pat seg s) (h' : Tracks pat (seg ++ [b]) s') : s' ≤ s + 1 := by
  cases s' with
  | zero => exact Nat.zero_le _
  | succ j =>
    obtain ⟨h1, -⟩ := (take_succ_suffix_concat h'.le).1 h'.ends
    exact Nat.succ_le_succ (h.longest j (Nat.le_of_succ_le h'.le) h1)

/-! ## The matcher -/

variable [DecidableEq α]

/-- The loop of `kmp_fail`: `j` symbols of the pattern end at the one before `i`. -/
def kmpFailLoop (pat : List α) : Nat → Nat → Nat → List Nat → List Nat
  | 0, _, _, fail => fail
  | fuel + 1, i, j, fail =>
    if i < pat.length then
      if pat[i]? = pat[j]? then kmpFailLoop pat fuel (i + 1) (j + 1) (fail.set i (j + 1))
      else if 0 < j then kmpFailLoop pat fuel i (fail.getD (j - 1) 0) fail
      else kmpFailLoop pat fuel (i + 1) j (fail.set i 0)
    else fail

/-- `kmp_fail`: every turn moves `i` forward or `j` back, so `2 * pat.length` turns are enough. -/
def kmpFail (pat : List α) : List Nat := kmpFailLoop pat (2 * pat.length) 1 0 (replicate pat.length 0)

def advanceLoop (pat : List α) (fail : List Nat) (b : α) : Nat → Nat → Nat
  | 0, _ => 0
  | fuel + 1, s =>
    if pat[s]? = some b then s + 1
    else if s = 0 then 0
    else advanceLoop pat fail b fuel (fail.getD (s - 1) 0)

/-- `advance_kmp`: one step from `pat[..state]` matched. -/
def advanceKmp (state : Nat) (b : α) (pat : List α) (fail : List Nat) : Nat := advanceLoop pat fail b (state + 1) state

instance (pat : List α) (fail : List Nat) : Decidable (BorderTable pat fail) :=
  inferInstanceAs (Decidable (∀ s < pat.length, fail.getD s 0 < s + 1 ∧ pat.take (fail.getD s 0) <:+ pat.take (s + 1) ∧
    ∀ k < s + 1, pat.take k <:+ pat.take (s + 1) → k ≤ fail.getD s 0))

/-- The loop meets, in decreasing order, every beginning that ends the stream. -/
theorem advanceLoop_tracks {fail : List Nat} (ht : BorderTable pat fail) :
    ∀ {fuel s : Nat}, s < fuel → s ≤ pat.length → pat.take s <:+ seg →
      (∀ k ≤ pat.length, pat.take k <:+ seg → pat[k]? = some b → k ≤ s) →
      Tracks pat (seg ++ [b]) (advanceLoop pat fail b fuel s)
  | fuel + 1, s, hfuel, hle, hends, hmax => by
    -- a longer match is one symbol longer than a match that the bound covers
    have hbound : ∀ k ≤ pat.length, pat.take k <:+ seg ++ [b] → k ≤ s + 1 := by
      intro k hk hsuf
      cases k with
      | zero => exact Nat.zero_le _
      | succ j =>
        obtain ⟨h1, h2⟩ := (take_succ_suffix_concat hk).1 hsuf
        exact Nat.succ_le_succ (hmax j (Nat.le_of_succ_le hk) h1 h2)
    unfold advanceLoop
    split
    · rename_i hb
      have hlt : s < pat.length := (List.getElem?_eq_some_iff.1 hb).1
      exact ⟨hlt, (take_succ_suffix_concat hlt).2 ⟨hends, hb⟩, hbound⟩
    · rename_i hb
      split
      · rename_i hs
        subst hs
        refine ⟨Nat.zero_le _, nil_suffix, fun k hk hsuf => ?_⟩
        cases k with
        | zero => exact le_rfl
        | succ j =>
          obtain ⟨h1, h2⟩ := (take_succ_suffix_concat hk).1 hsuf
          have hj : j = 0 := Nat.le_zero.1 (hmax j (Nat.le_of_succ_le hk) h1 h2)
          exact absurd (hj ▸ h2) hb
      · rename_i hs
        obtain ⟨hlt, hborder, hlongest⟩ := ht (s - 1) (by omega)
        rw [Nat.sub_add_cancel (Nat.pos_of_ne_zero hs)] at hlt hborder hlongest
        refine advanceLoop_tracks ht (by omega) (by omega) (hborder.trans hends) fun k hk hsuf hkb => ?_
        have hne : k ≠ s := fun h => hb (h ▸ hkb)
        have hks := hmax k hk hsuf hkb
        refine hlongest k (by omega) ?_
        exact suffix_of_suffix_length_le hsuf hends (by rw [length_take, length_take]; omega)

/-- **One step of the matcher.** -/
theorem advanceKmp_tracks {fail : List Nat} (ht : BorderTable pat fail) {s : Nat} (b : α)
    (h : Tracks pat seg s) : Tracks pat (seg ++ [b]) (advanceKmp s b pat fail) :=
  advanceLoop_tracks ht (Nat.lt_succ_self s) h.le h.ends fun k hk hsuf _ => h.longest k hk hsuf

end Hipfire

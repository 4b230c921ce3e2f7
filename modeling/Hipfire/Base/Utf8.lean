import Hipfire.Base.Bytes
import Hipfire.Base.Holdback
/-!
# Utf8 — characters in the bytes of a text

A character's first byte is never a continuation byte and its others always are, so a text found among the bytes of another
stands between two of its characters.
-/
namespace Hipfire

open List

/-- `10xxxxxx`. -/
def isContinuation (b : UInt8) : Bool := 128 ≤ b && b < 192

theorem isContinuation_ofNat {n : Nat} (h : n < 256) :
    isContinuation (UInt8.ofNat n) = (decide (128 ≤ n) && decide (n < 192)) := by
  have hn : (UInt8.ofNat n).toNat = n := UInt8.toNat_ofNat_of_lt' h
  unfold isContinuation
  simp only [UInt8.lt_iff_toNat_lt, UInt8.le_iff_toNat_le, hn]
  rfl

/-- A character's first byte leads, the others continue. -/
theorem utf8EncodeChar_shape (c : Char) :
    ∃ b s, String.utf8EncodeChar c = b :: s ∧ isContinuation b = false ∧ ∀ x ∈ s, isContinuation x = true := by
  unfold String.utf8EncodeChar
  dsimp only
  have hlead : ∀ n, n < 256 → n < 128 ∨ 192 ≤ n → isContinuation (UInt8.ofNat n) = false := by
    intro n hn h
    rw [isContinuation_ofNat hn, Bool.and_eq_false_iff, decide_eq_false_iff_not, decide_eq_false_iff_not]
    omega
  have hcont : ∀ n, 128 ≤ n → n < 192 → isContinuation (UInt8.ofNat n) = true := by
    intro n hlow hhigh
    rw [isContinuation_ofNat (by omega), Bool.and_eq_true, decide_eq_true_eq, decide_eq_true_eq]
    exact ⟨hlow, hhigh⟩
  split
  · exact ⟨_, [], rfl, hlead _ (by omega) (by omega), nofun⟩
  split
  · refine ⟨_, _, rfl, hlead _ (by omega) (by omega), ?_⟩
    simp only [mem_cons, not_mem_nil, or_false]
    rintro x rfl
    exact hcont _ (by omega) (by omega)
  split
  · refine ⟨_, _, rfl, hlead _ (by omega) (by omega), ?_⟩
    simp only [mem_cons, not_mem_nil, or_false]
    rintro x (rfl | rfl) <;> exact hcont _ (by omega) (by omega)
  · refine ⟨_, _, rfl, hlead _ (by omega) (by omega), ?_⟩
    simp only [mem_cons, not_mem_nil, or_false]
    rintro x (rfl | rfl | rfl) <;> exact hcont _ (by omega) (by omega)

theorem utf8_cons (c : Char) (l : List Char) : utf8 (c :: l) = String.utf8EncodeChar c ++ utf8 l := rfl

theorem utf8_ne_nil {l : List Char} (h : l ≠ []) : utf8 l ≠ [] := by
  cases l with
  | nil => exact absurd rfl h
  | cons c l =>
    obtain ⟨b, s, hb, -⟩ := utf8EncodeChar_shape c
    rw [utf8_cons, hb]
    exact cons_ne_nil _ _

theorem utf8_begins (v u : List Char) {after : List UInt8} (h : utf8 u = utf8 v ++ after) :
    ∃ b, u = v ++ b ∧ after = utf8 b := by
  have hbytes : v.utf8Encode ++ after.toByteArray = u.utf8Encode := by
    rw [utf8Encode, utf8Encode, ← toByteArray_append]
    exact congrArg toByteArray h.symm
  obtain ⟨b, rfl⟩ := isPrefix_of_utf8Encode_append_eq_utf8Encode _ hbytes
  rw [utf8_append, append_cancel_left_eq] at h
  exact ⟨b, rfl, h.symm⟩

/-- **Characters found among the bytes of others are found among these.** -/
theorem utf8_within {v : List Char} (hv : v ≠ []) : ∀ (u : List Char) {before after : List UInt8},
    utf8 u = before ++ utf8 v ++ after → ∃ a b, u = a ++ v ++ b ∧ before = utf8 a ∧ after = utf8 b
  | [], before, after, h => by
    have hnil := append_eq_nil_iff.1 (append_eq_nil_iff.1 h.symm).1
    exact absurd hnil.2 (utf8_ne_nil hv)
  | c :: u, [], after, h => by
    obtain ⟨b, hu, hafter⟩ := utf8_begins v (c :: u) h
    exact ⟨[], b, hu, rfl, hafter⟩
  | c :: u, x :: before, after, h => by
    obtain ⟨lead, s, hc, -, hs⟩ := utf8EncodeChar_shape c
    -- `v` leads, so it begins after the bytes of `c`
    have hle : s.length ≤ before.length := by
      by_contra hlt
      cases v with
      | nil => exact hv rfl
      | cons d v =>
        obtain ⟨lead', s', hd, hlead, -⟩ := utf8EncodeChar_shape d
        rw [utf8_cons, utf8_cons, hc, hd] at h
        have hget := congrArg (fun l : List UInt8 => l[before.length + 1]?) h
        simp only [cons_append, append_assoc, getElem?_cons_succ] at hget
        rw [getElem?_append_left (by omega), getElem?_append_right le_rfl, Nat.sub_self,
          getElem?_cons_zero] at hget
        rw [hs _ (mem_of_getElem? hget)] at hlead
        cases hlead
    rw [utf8_cons, hc, cons_append, cons_append, cons_append] at h
    obtain ⟨rfl, htail⟩ := cons.inj h
    have hpre : s <+: before := by
      refine prefix_of_prefix_length_le ⟨utf8 u, htail⟩ ⟨utf8 v ++ after, ?_⟩ hle
      rw [append_assoc]
    obtain ⟨rest, rfl⟩ := hpre
    rw [append_assoc, append_assoc, append_cancel_left_eq, ← append_assoc] at htail
    obtain ⟨a, b, rfl, rfl, rfl⟩ := utf8_within hv u htail
    exact ⟨c :: a, b, rfl, by rw [utf8_cons, hc]; rfl, rfl⟩

/-! ## Texts -/

theorem textBytes_eq (s : String) : textBytes s = utf8 s.toList := by
  conv_lhs => rw [← String.ofList_toList (s := s)]
  exact textBytes_ofList s.toList

theorem textBytes_append (a b : String) : textBytes (a ++ b) = textBytes a ++ textBytes b := by
  rw [textBytes_eq, textBytes_eq, textBytes_eq, String.toList_append, utf8_append]

theorem textBytes_eq_nil {s : String} : textBytes s = [] ↔ s = "" :=
  ⟨fun h => textBytes_inj h, fun h => h ▸ rfl⟩

theorem textBytes_lead {s : String} {b : UInt8} {rest : List UInt8} (h : textBytes s = b :: rest) :
    isContinuation b = false := by
  rw [textBytes_eq] at h
  cases hs : s.toList with
  | nil =>
    rw [hs] at h
    cases h
  | cons c l =>
    obtain ⟨b', s', hc, hlead, -⟩ := utf8EncodeChar_shape c
    rw [hs, utf8_cons, hc] at h
    cases h
    exact hlead

/-- **A text found among the bytes of another stands between two parts that are texts.** -/
theorem textBytes_within {u v : String} (hv : v ≠ "") {before after : List UInt8}
    (h : textBytes u = before ++ textBytes v ++ after) :
    ∃ a b : String, u = a ++ v ++ b ∧ before = textBytes a ∧ after = textBytes b := by
  rw [textBytes_eq, textBytes_eq] at h
  have hne : v.toList ≠ [] := fun hnil => hv (String.toList_eq_nil_iff.1 hnil)
  obtain ⟨a, b, hu, hbefore, hafter⟩ := utf8_within hne u.toList h
  refine ⟨String.ofList a, String.ofList b, ?_, ?_, ?_⟩
  · rw [← String.toList_inj, String.toList_append, String.toList_append, String.toList_ofList, String.toList_ofList, hu]
  · rw [textBytes_ofList]
    exact hbefore
  · rw [textBytes_ofList]
    exact hafter

/-! ## The beginning that is a text -/

/-- `from_utf8` succeeds. -/
def isUtf8 (s : List UInt8) : Bool := (String.fromUTF8? ⟨s.toArray⟩).isSome

theorem isUtf8_iff {s : List UInt8} : isUtf8 s = true ↔ ∃ t : String, textBytes t = s := by
  unfold isUtf8 String.fromUTF8?
  constructor
  · intro h
    split at h
    · rename_i hv
      exact ⟨.ofByteArray _ hv, rfl⟩
    · cases h
  · rintro ⟨t, rfl⟩
    exact congrArg Option.isSome (dif_pos t.isValidUTF8)

theorem isUtf8_nil : isUtf8 [] = true := isUtf8_iff.2 ⟨"", rfl⟩

theorem isUtf8_append {a : List UInt8} (ha : isUtf8 a = true) (b : List UInt8) : isUtf8 (a ++ b) = isUtf8 b := by
  obtain ⟨t, rfl⟩ := isUtf8_iff.1 ha
  rw [Bool.eq_iff_iff, isUtf8_iff, isUtf8_iff]
  constructor
  · rintro ⟨u, hu⟩
    rw [textBytes_eq, textBytes_eq] at hu
    obtain ⟨l, -, hl⟩ := utf8_begins t.toList u.toList hu
    exact ⟨String.ofList l, by rw [textBytes_ofList, hl]⟩
  · rintro ⟨u, rfl⟩
    exact ⟨t ++ u, textBytes_append t u⟩

/-- `valid_up_to`: the largest index such that the bytes before it are UTF-8. -/
def utf8SafeEnd (s : List UInt8) : Nat := findDown (fun k => isUtf8 (s.take k)) s.length

theorem utf8SafeEnd_le (s : List UInt8) : utf8SafeEnd s ≤ s.length := findDown_le _ _

theorem isUtf8_take_safeEnd (s : List UInt8) : isUtf8 (s.take (utf8SafeEnd s)) = true := by
  unfold utf8SafeEnd
  rcases findDown_found (fun k => isUtf8 (s.take k)) s.length with h | h
  · rw [h, take_zero]
    exact isUtf8_nil
  · exact h

theorem le_utf8SafeEnd {s : List UInt8} {k : Nat} (hle : k ≤ s.length) (h : isUtf8 (s.take k) = true) :
    k ≤ utf8SafeEnd s := by
  by_cases hk : k = 0
  · rw [hk]
    exact Nat.zero_le _
  · exact le_findDown h hle hk

/-- **A text and the beginning of what follows it.** -/
theorem utf8SafeEnd_append {a : List UInt8} (ha : isUtf8 a = true) (b : List UInt8) :
    utf8SafeEnd (a ++ b) = a.length + utf8SafeEnd b := by
  have htake : ∀ k, isUtf8 ((a ++ b).take (a.length + k)) = isUtf8 (b.take k) := fun k => by
    rw [take_length_add_append, isUtf8_append ha]
  apply Nat.le_antisymm
  · by_contra hlt
    obtain ⟨k, hk⟩ := Nat.exists_eq_add_of_le (Nat.le_of_lt (Nat.lt_of_le_of_lt (Nat.le_add_right _ _) (Nat.not_le.1 hlt)))
    have hle := utf8SafeEnd_le (a ++ b)
    have hvalid := isUtf8_take_safeEnd (a ++ b)
    rw [hk, htake] at hvalid
    rw [hk, length_append] at hle
    have := le_utf8SafeEnd (by omega) hvalid
    omega
  · refine le_utf8SafeEnd ?_ ?_
    · rw [length_append]
      exact Nat.add_le_add_left (utf8SafeEnd_le b) _
    · rw [htake]
      exact isUtf8_take_safeEnd b

end Hipfire

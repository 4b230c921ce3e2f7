import Mathlib
/-!
# Lossy — bytes read as UTF-8, with a replacement for what is no character

`scanChar` says what stands at the front of some bytes: a character, bytes that begin none, or the beginning of one that is
cut short.  `fromUtf8` (`str::from_utf8`) stops at the first of the last two, `lossy` (`String::from_utf8_lossy`) puts one
U+FFFD in the place of each.  A text is its bytes here, as a `String` is.
-/
namespace Hipfire

open List

inductive Front
  | char (len : Nat)
  | invalid (len : Nat)
  | cut
  deriving DecidableEq, Repr

/-- `utf8_char_width`; 0 for a byte that leads no character. -/
def charWidth (b : UInt8) : Nat :=
  if b < 0x80 then 1 else if b < 0xC2 then 0 else if b < 0xE0 then 2 else if b < 0xF0 then 3 else if b < 0xF5 then 4 else 0

/-- The bytes that may stand at place `k` of a character: the second one rules out overlong forms, surrogates and what is
above U+10FFFF. -/
def fitsAt (first : UInt8) (k : Nat) (b : UInt8) : Bool :=
  if k = 1 ∧ first = 0xE0 then decide (0xA0 ≤ b ∧ b ≤ 0xBF)
  else if k = 1 ∧ first = 0xED then decide (0x80 ≤ b ∧ b ≤ 0x9F)
  else if k = 1 ∧ first = 0xF0 then decide (0x90 ≤ b ∧ b ≤ 0xBF)
  else if k = 1 ∧ first = 0xF4 then decide (0x80 ≤ b ∧ b ≤ 0x8F)
  else decide (0x80 ≤ b ∧ b ≤ 0xBF)

/-- The bytes behind the first one, from place `k` on. -/
def scanTail (first : UInt8) (width : Nat) : Nat → List UInt8 → Front
  | k, [] => if k = width then .char width else .cut
  | k, b :: s => if k = width then .char width else if fitsAt first k b then scanTail first width (k + 1) s else .invalid k

def scanChar : List UInt8 → Front
  | [] => .cut
  | b :: s => if charWidth b = 0 then .invalid 1 else scanTail b (charWidth b) 1 s

/-! ## What a scan sees -/

theorem charWidth_le (b : UInt8) : charWidth b ≤ 4 := by
  unfold charWidth
  repeat' split
  all_goals omega

variable {s : List UInt8} {width : Nat} {first : UInt8}

theorem scanTail_append : ∀ {k : Nat} {s : List UInt8} (t : List UInt8),
    scanTail first width k s ≠ .cut → scanTail first width k (s ++ t) = scanTail first width k s
  | k, [], t, h => by
    by_cases hk : k = width
    · cases t <;> simp [scanTail, hk]
    · simp [scanTail, hk] at h
  | k, b :: s, t, h => by
    rw [cons_append, scanTail, scanTail]
    rw [scanTail] at h
    split
    · rfl
    rename_i hk
    rw [if_neg hk] at h
    split
    · rename_i hb
      rw [if_pos hb] at h
      exact scanTail_append t h
    · rfl

theorem scanTail_cut : ∀ {k : Nat} {s : List UInt8}, k ≤ width → scanTail first width k s = .cut → k + s.length < width
  | k, [], hk, h => by
    rw [scanTail] at h
    split at h
    · cases h
    · rw [length_nil]
      omega
  | k, b :: s, hk, h => by
    rw [scanTail] at h
    split at h
    · cases h
    split at h
    · have := scanTail_cut (by omega) h
      rw [length_cons]
      omega
    · cases h

theorem scanTail_invalid : ∀ {k n : Nat} {s : List UInt8},
    scanTail first width k s = .invalid n → k ≤ n ∧ n < k + s.length
  | k, n, [], h => by
    rw [scanTail] at h
    split at h <;> cases h
  | k, n, b :: s, h => by
    rw [scanTail] at h
    rw [length_cons]
    split at h
    · cases h
    split at h
    · have := scanTail_invalid h
      omega
    · cases h
      omega

/-- A character is whole before what follows it is read. -/
theorem scanTail_char : ∀ {k n : Nat} {s : List UInt8}, k ≤ width → scanTail first width k s = .char n →
    n = width ∧ width ≤ k + s.length ∧ ∀ m, width ≤ k + m → scanTail first width k (s.take m) = .char n
  | k, n, [], hk, h => by
    rw [scanTail] at h
    split at h
    · cases h
      exact ⟨rfl, by omega, fun m _ => by rw [take_nil, scanTail, if_pos ‹_›]⟩
    · cases h
  | k, n, b :: s, hk, h => by
    rw [scanTail] at h
    rw [length_cons]
    split at h
    · rename_i hw
      cases h
      refine ⟨rfl, by omega, fun m _ => ?_⟩
      cases m with
      | zero => rw [take_zero, scanTail, if_pos hw]
      | succ m => rw [take_succ_cons, scanTail, if_pos hw]
    · rename_i hw
      split at h
      · rename_i hb
        obtain ⟨hn, hle, htake⟩ := scanTail_char (by omega) h
        refine ⟨hn, by omega, fun m hm => ?_⟩
        cases m with
        | zero => omega
        | succ m => rw [take_succ_cons, scanTail, if_neg hw, if_pos hb, htake m (by omega)]
      · cases h

theorem scanChar_append (t : List UInt8) (h : scanChar s ≠ .cut) : scanChar (s ++ t) = scanChar s := by
  cases s with
  | nil => exact absurd rfl h
  | cons b s =>
    rw [cons_append, scanChar, scanChar]
    rw [scanChar] at h
    split
    · rfl
    · rename_i hb
      rw [if_neg hb] at h
      exact scanTail_append t h

/-- **A beginning that waits for more is at most three bytes.** -/
theorem scanChar_cut (h : scanChar s = .cut) : s.length ≤ 3 := by
  cases s with
  | nil => exact Nat.zero_le _
  | cons b s =>
    rw [scanChar] at h
    split at h
    · cases h
    · have := scanTail_cut (by omega) h
      have := charWidth_le b
      rw [length_cons]
      omega

variable {n : Nat}

theorem scanChar_invalid (h : scanChar s = .invalid n) : 0 < n ∧ n ≤ s.length := by
  cases s with
  | nil => cases h
  | cons b s =>
    rw [scanChar] at h
    rw [length_cons]
    split at h
    · cases h
      omega
    · have := scanTail_invalid h
      omega

theorem scanChar_char (h : scanChar s = .char n) :
    0 < n ∧ n ≤ s.length ∧ ∀ m, n ≤ m → scanChar (s.take m) = .char n := by
  cases s with
  | nil => cases h
  | cons b s =>
    rw [scanChar] at h
    split at h
    · cases h
    rename_i hb
    obtain ⟨rfl, hle, htake⟩ := scanTail_char (by omega) h
    refine ⟨by omega, by rw [length_cons]; omega, fun m hm => ?_⟩
    cases m with
    | zero => omega
    | succ m => rw [take_succ_cons, scanChar, if_neg hb, htake m (by omega)]

/-! ## Lossy reading -/

/-- U+FFFD. -/
def replacement : List UInt8 := [0xEF, 0xBF, 0xBD]

def lossyLoop : Nat → List UInt8 → List UInt8
  | _, [] => []
  | 0, _ :: _ => []
  | fuel + 1, b :: s =>
    match scanChar (b :: s) with
    | .char n => (b :: s).take n ++ lossyLoop fuel ((b :: s).drop n)
    | .invalid n => replacement ++ lossyLoop fuel ((b :: s).drop n)
    | .cut => replacement

/-- `String::from_utf8_lossy`; every turn takes a byte, so the length bounds the turns. -/
def lossy (s : List UInt8) : List UInt8 := lossyLoop s.length s

theorem lossyLoop_fuel : ∀ {fuel fuel' : Nat} {s : List UInt8}, s.length ≤ fuel → s.length ≤ fuel' →
    lossyLoop fuel s = lossyLoop fuel' s
  | fuel, fuel', [], _, _ => by rw [lossyLoop, lossyLoop]
  | fuel + 1, fuel' + 1, b :: s, h, h' => by
    rw [length_cons] at h h'
    have hdrop : ∀ n, 0 < n → lossyLoop fuel ((b :: s).drop n) = lossyLoop fuel' ((b :: s).drop n) := fun n hn => by
      have hlen : ((b :: s).drop n).length ≤ s.length := by
        rw [length_drop, length_cons]
        omega
      exact lossyLoop_fuel (by omega) (by omega)
    rw [lossyLoop, lossyLoop]
    split
    · rename_i n hscan
      rw [hdrop n (scanChar_char hscan).1]
    · rename_i n hscan
      rw [hdrop n (scanChar_invalid hscan).1]
    · rfl

theorem lossy_eq {b : UInt8} : lossy (b :: s) = match scanChar (b :: s) with
    | .char n => (b :: s).take n ++ lossy ((b :: s).drop n)
    | .invalid n => replacement ++ lossy ((b :: s).drop n)
    | .cut => replacement := by
  have hdrop : ∀ n, 0 < n → ((b :: s).drop n).length ≤ s.length := fun n hn => by
    rw [length_drop, length_cons]
    omega
  rw [lossy, length_cons, lossyLoop]
  split
  · rename_i n hscan
    rw [lossy, lossyLoop_fuel (hdrop n (scanChar_char hscan).1) (Nat.le_refl _)]
  · rename_i n hscan
    rw [lossy, lossyLoop_fuel (hdrop n (scanChar_invalid hscan).1) (Nat.le_refl _)]
  · rfl

/-- A character at the front is kept, whatever follows. -/
theorem lossy_char (h : scanChar s = .char n) (t : List UInt8) :
    lossy (s ++ t) = s.take n ++ lossy (s.drop n ++ t) := by
  have happ := scanChar_append t (by rw [h]; nofun)
  obtain ⟨-, hle, -⟩ := scanChar_char h
  cases s with
  | nil => cases h
  | cons b s =>
    rw [h, cons_append] at happ
    rw [cons_append, lossy_eq, happ]
    dsimp only
    rw [← cons_append, take_append_of_le_length hle, drop_append_of_le_length hle]

/-- What begins no character is replaced, whatever follows. -/
theorem lossy_invalid (h : scanChar s = .invalid n) (t : List UInt8) :
    lossy (s ++ t) = replacement ++ lossy (s.drop n ++ t) := by
  have happ := scanChar_append t (by rw [h]; nofun)
  obtain ⟨-, hle⟩ := scanChar_invalid h
  cases s with
  | nil => cases h
  | cons b s =>
    rw [h, cons_append] at happ
    rw [cons_append, lossy_eq, happ]
    dsimp only
    rw [← cons_append, drop_append_of_le_length hle]

/-! ## Strict reading -/

/-- `Utf8Error`; no `error_len` when the input ended inside a character. -/
structure Utf8Error where
  validUpTo : Nat
  errorLen : Option Nat
  deriving DecidableEq, Repr

def fromUtf8Loop : Nat → Nat → List UInt8 → Option Utf8Error
  | _, _, [] => none
  | 0, _, _ :: _ => none
  | fuel + 1, index, b :: s =>
    match scanChar (b :: s) with
    | .char n => fromUtf8Loop fuel (index + n) ((b :: s).drop n)
    | .invalid n => some ⟨index, some n⟩
    | .cut => some ⟨index, none⟩

/-- The error of `str::from_utf8`, if there is one. -/
def fromUtf8 (s : List UInt8) : Option Utf8Error := fromUtf8Loop s.length 0 s

theorem fromUtf8Loop_ok : ∀ {fuel index : Nat} {s : List UInt8}, s.length ≤ fuel → fromUtf8Loop fuel index s = none →
    ∀ t, lossy (s ++ t) = s ++ lossy t
  | _, _, [], _, _, t => rfl
  | fuel + 1, index, b :: s, hlen, h, t => by
    rw [fromUtf8Loop] at h
    split at h
    · rename_i n hscan
      obtain ⟨hpos, -, -⟩ := scanChar_char hscan
      have hrest := fromUtf8Loop_ok (by rw [length_drop]; omega) h t
      rw [lossy_char hscan, hrest, ← append_assoc, take_append_drop]
    · cases h
    · cases h

/-- **Where strict reading stops**: in front of it are characters, which are kept, and at it is what the error says. -/
theorem fromUtf8Loop_error : ∀ {fuel index : Nat} {s : List UInt8} {e : Utf8Error}, s.length ≤ fuel →
    fromUtf8Loop fuel index s = some e →
    ∃ v, e.validUpTo = index + v ∧ v ≤ s.length ∧ (∀ t, lossy (s ++ t) = s.take v ++ lossy (s.drop v ++ t)) ∧
      (∀ fuel' index', v ≤ fuel' → fromUtf8Loop fuel' index' (s.take v) = none) ∧
      scanChar (s.drop v) = (match e.errorLen with | some n => .invalid n | none => .cut)
  | _, _, [], _, _, h => by
    rw [fromUtf8Loop] at h
    cases h
  | fuel + 1, index, b :: s, e, hlen, h => by
    rw [fromUtf8Loop] at h
    split at h
    · rename_i n hscan
      obtain ⟨hpos, hle, htake⟩ := scanChar_char hscan
      have hlength : ((b :: s).drop n).length ≤ fuel := by
        rw [length_drop]
        omega
      obtain ⟨v, hindex, hv, hlossy, hvalid, hat⟩ := fromUtf8Loop_error hlength h
      rw [length_drop] at hv
      refine ⟨n + v, by omega, by omega, fun t => ?_, fun fuel' index' hfuel => ?_, ?_⟩
      · rw [lossy_char hscan, hlossy, take_add, drop_drop, append_assoc]
      · cases fuel' with
        | zero => omega
        | succ fuel' =>
          have hcons : (b :: s).take (n + v) = b :: s.take (n + v - 1) := by
            rw [← Nat.succ_pred_eq_of_pos (show 0 < n + v by omega)]
            rfl
          have hscan' := htake (n + v) (Nat.le_add_right _ _)
          rw [hcons] at hscan' ⊢
          rw [fromUtf8Loop, hscan']
          dsimp only
          rw [← hcons, drop_take, Nat.add_sub_cancel_left]
          exact hvalid fuel' _ (by omega)
      · rw [← drop_drop, hat]
    -- the loop stops at once, whichever the error
    all_goals
      rename_i hscan
      cases h
      refine ⟨0, rfl, Nat.zero_le _, fun _ => rfl, fun fuel' _ _ => ?_, hscan⟩
      rw [take_zero]
      cases fuel' <;> rw [fromUtf8Loop]

theorem fromUtf8_ok (h : fromUtf8 s = none) (t : List UInt8) : lossy (s ++ t) = s ++ lossy t :=
  fromUtf8Loop_ok (Nat.le_refl _) h t

/-- What an error of `fromUtf8` says about the bytes. -/
theorem fromUtf8_error {e : Utf8Error} (h : fromUtf8 s = some e) : e.validUpTo ≤ s.length ∧
      (∀ t, lossy (s ++ t) = s.take e.validUpTo ++ lossy (s.drop e.validUpTo ++ t)) ∧
      fromUtf8 (s.take e.validUpTo) = none ∧
      scanChar (s.drop e.validUpTo) = (match e.errorLen with | some n => .invalid n | none => .cut) := by
  obtain ⟨v, hv, hle, hlossy, hvalid, hat⟩ := fromUtf8Loop_error (Nat.le_refl _) h
  rw [Nat.zero_add] at hv
  rw [hv]
  refine ⟨hle, hlossy, hvalid _ _ ?_, hat⟩
  exact Nat.le_of_eq (by rw [length_take, Nat.min_eq_left hle])

end Hipfire

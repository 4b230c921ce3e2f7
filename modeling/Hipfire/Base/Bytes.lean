import Mathlib
/-!
# Bytes — numbers and texts as bytes

The little-endian bytes of a number (`to_le_bytes`, `from_le_bytes`) and the UTF-8 bytes of a text (`as_bytes`,
`from_utf8_lossy`).
-/
namespace Hipfire

open List

/-! ## Little-endian numbers -/

/-- The `width` low bytes of a number, the lowest first (`to_le_bytes`). -/
def leBytes (width n : Nat) : List UInt8 := (range width).map (fun k => UInt8.ofNat (n / 256 ^ k))

theorem leBytes_succ (width n : Nat) : leBytes (width + 1) n = UInt8.ofNat n :: leBytes width (n / 256) := by
  unfold leBytes
  rw [range_succ_eq_map, map_cons, map_map, Nat.pow_zero, Nat.div_one]
  refine congrArg (cons _) (map_congr_left (fun k _ => ?_))
  rw [Function.comp_apply, Nat.div_div_eq_div_mul, Nat.succ_eq_add_one, Nat.pow_succ']

theorem length_leBytes (width n : Nat) : (leBytes width n).length = width := by
  unfold leBytes
  rw [length_map, length_range]

theorem leBytes_inj : ∀ {width n m : Nat}, n < 256 ^ width → m < 256 ^ width → leBytes width n = leBytes width m → n = m
  | 0, n, m, hn, hm, _ => by
    omega
  | width + 1, n, m, hn, hm, h => by
    rw [leBytes_succ, leBytes_succ] at h
    obtain ⟨hlow, hhigh⟩ := cons.inj h
    have hlow' := congrArg UInt8.toNat hlow
    rw [UInt8.toNat_ofNat', UInt8.toNat_ofNat'] at hlow'
    rw [Nat.pow_succ'] at hn hm
    have hdiv := leBytes_inj (Nat.div_lt_of_lt_mul hn) (Nat.div_lt_of_lt_mul hm) hhigh
    omega

/-- The number whose bytes these are, the lowest first (`from_le_bytes`). -/
def leNat : List UInt8 → Nat
  | [] => 0
  | b :: s => b.toNat + 256 * leNat s

theorem leNat_leBytes : ∀ width n : Nat, leNat (leBytes width n) = n % 256 ^ width
  | 0, n => by
    rw [Nat.pow_zero, Nat.mod_one]
    rfl
  | width + 1, n => by
    have hlow : (UInt8.ofNat n).toNat = n % 256 := UInt8.toNat_ofNat'
    have hsplit : n % (256 * 256 ^ width) = n % 256 + 256 * (n / 256 % 256 ^ width) := Nat.mod_mul
    rw [leBytes_succ, leNat, leNat_leBytes width, hlow, Nat.pow_succ', hsplit]

/-! ## Texts -/

def textBytes (text : String) : List UInt8 := text.toUTF8.data.toList

theorem textBytes_inj {a b : String} (h : textBytes a = textBytes b) : a = b :=
  String.toByteArray_inj.1 (ByteArray.ext (Array.toList_inj.1 h))

/-- `from_utf8_lossy`; what becomes of bytes that are no UTF-8 is left open. -/
def fromUtf8Lossy (repair : List UInt8 → String) (bytes : List UInt8) : String :=
  (String.fromUTF8? ⟨bytes.toArray⟩).getD (repair bytes)

theorem fromUtf8Lossy_textBytes (repair : List UInt8 → String) (text : String) :
    fromUtf8Lossy repair (textBytes text) = text := by
  exact congrArg (fun o : Option String => o.getD _) (dif_pos text.isValidUTF8)

/-- The bytes of some characters. -/
def utf8 (l : List Char) : List UInt8 := l.flatMap String.utf8EncodeChar

theorem utf8_append (a b : List Char) : utf8 (a ++ b) = utf8 a ++ utf8 b := flatMap_append

theorem textBytes_ofList (l : List Char) : textBytes (String.ofList l) = utf8 l := by
  unfold textBytes
  rw [String.toUTF8_eq_toByteArray, String.toByteArray_ofList, utf8Encode, data_toByteArray]
  rfl

theorem fromUtf8Lossy_char (repair : List UInt8 → String) (c : Char) :
    (fromUtf8Lossy repair (String.utf8EncodeChar c)).toList = [c] := by
  have hbytes : textBytes (String.ofList [c]) = String.utf8EncodeChar c := by
    rw [textBytes_ofList, utf8, flatMap_singleton]
  rw [← hbytes, fromUtf8Lossy_textBytes, String.toList_ofList]

end Hipfire

import Hipfire.Base.Bytes
/-!
# Gpt2Bytes — bytes as the visible characters of a GPT-2 vocabulary

Printable bytes stand for themselves, the others for the characters from U+0100 on, in order.  Texts are lists of
characters; `utf8` is their encoding.
-/
namespace Hipfire.Tokens

def isPrintable (b : Nat) : Bool :=
  decide (0x21 ≤ b ∧ b ≤ 0x7E) || decide (0xA1 ≤ b ∧ b ≤ 0xAC) || decide (0xAE ≤ b ∧ b ≤ 0xFF)

/-- `GPT2_BYTE_TO_OFFSET` of a byte that is not printable: how many such bytes come before it. -/
def gpt2ByteToOffset (b : UInt8) : Nat := (List.range b.toNat).countP fun n => !isPrintable n

/-- `GPT2_OFFSET_TO_BYTE`. -/
def gpt2OffsetToByte : List UInt8 := ((List.range 256).filter fun n => !isPrintable n).map UInt8.ofNat

def byteToGpt2Char (b : UInt8) : Char :=
  if isPrintable b.toNat then Char.ofNat b.toNat else Char.ofNat (256 + gpt2ByteToOffset b)

def gpt2CharToByte (c : Char) : Option UInt8 :=
  if isPrintable c.toNat then some (UInt8.ofNat c.toNat)
  else if 256 ≤ c.toNat ∧ c.toNat < 256 + 68 then gpt2OffsetToByte[c.toNat - 256]?
  else none

/-- The bytes of one character of a GPT-2 vocabulary entry. -/
def decodeChar (c : Char) : List UInt8 :=
  if c = 'Ġ' then [0x20]
  else if c = 'Ċ' then [0x0A]
  else if c = 'ĉ' then [0x09]
  else if c.toNat < 128 then [UInt8.ofNat c.toNat]
  else
    match gpt2CharToByte c with
    | some b => [b]
    | none => String.utf8EncodeChar c

/-- **A byte's symbol decodes to the byte.** -/
theorem decodeChar_byteToGpt2Char (b : UInt8) : decodeChar (byteToGpt2Char b) = [b] := by
  have hall : ∀ n < 256, decodeChar (byteToGpt2Char (UInt8.ofNat n)) = [UInt8.ofNat n] := by decide +kernel
  have h := hall b.toNat (UInt8.toNat_lt b)
  rwa [UInt8.ofNat_toNat] at h

theorem decodeChar_ascii {c : Char} (h : c.toNat < 128) : decodeChar c = String.utf8EncodeChar c := by
  have hne : c ≠ 'Ġ' ∧ c ≠ 'Ċ' ∧ c ≠ 'ĉ' := by
    refine ⟨?_, ?_, ?_⟩ <;> (rintro rfl; exact absurd h (by decide))
  rw [decodeChar, if_neg hne.1, if_neg hne.2.1, if_neg hne.2.2, if_pos h]
  exact (if_pos (Nat.le_of_lt_succ h)).symm

end Hipfire.Tokens

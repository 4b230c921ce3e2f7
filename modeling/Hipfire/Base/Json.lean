import Mathlib
/-!
# Json — the grammar of JSON texts and what they denote

Texts are UTF-8 bytes.  `Chars` relates what stands between quotes to the characters it decodes to, `Denotes` a value's text
to its tree, one constructor for each production.  `Strict` trees repeat no decoded key inside an object; `IsObject` is a
text that ends with the brace that closes its object.
-/
namespace Hipfire.Json

open List

abbrev Bytes := List UInt8

def quote : UInt8 := 34

def backslash : UInt8 := 92

def openBrace : UInt8 := 123

def closeBrace : UInt8 := 125

/-- Blank, line feed, tab, carriage return. -/
def isWs (b : UInt8) : Bool := b = 32 || b = 10 || b = 9 || b = 13

def IsSpace (s : Bytes) : Prop := ∀ b ∈ s, isWs b = true

/-! ## Numbers -/

def IsDigit (b : UInt8) : Prop := 48 ≤ b ∧ b ≤ 57

instance (b : UInt8) : Decidable (IsDigit b) := inferInstanceAs (Decidable (_ ∧ _))

/-- At least one digit. -/
def IsDigits (s : Bytes) : Prop := s ≠ [] ∧ ∀ b ∈ s, IsDigit b

/-- No leading zero. -/
def IsWhole (s : Bytes) : Prop := s = [48] ∨ IsDigits s ∧ s.head? ≠ some 48

def IsFraction (s : Bytes) : Prop := s = [] ∨ ∃ digits, IsDigits digits ∧ s = 46 :: digits

def IsExponent (s : Bytes) : Prop :=
  s = [] ∨ ∃ e sign digits, (e = 69 ∨ e = 101) ∧ (sign = [] ∨ sign = [43] ∨ sign = [45]) ∧ IsDigits digits ∧
    s = e :: (sign ++ digits)

def IsNumber (s : Bytes) : Prop :=
  ∃ sign whole fraction exponent, (sign = [] ∨ sign = [45]) ∧ IsWhole whole ∧ IsFraction fraction ∧
    IsExponent exponent ∧ s = sign ++ whole ++ fraction ++ exponent

/-! ## Strings -/

/-- The byte after a backslash and the character the two stand for. -/
def simpleEscape (b : UInt8) : Option Char :=
  if b = 34 then some '"'
  else if b = 92 then some '\\'
  else if b = 47 then some '/'
  else if b = 98 then some '\x08'
  else if b = 102 then some '\x0c'
  else if b = 110 then some '\n'
  else if b = 114 then some '\r'
  else if b = 116 then some '\t'
  else none

def hexDigit (b : UInt8) : Option Nat :=
  if 48 ≤ b ∧ b ≤ 57 then some (b.toNat - 48)
  else if 65 ≤ b ∧ b ≤ 70 then some (b.toNat - 55)
  else if 97 ≤ b ∧ b ≤ 102 then some (b.toNat - 87)
  else none

/-- The number the hexadecimal digits stand for. -/
def hexNumber (s : Bytes) : Option Nat :=
  s.foldl (fun acc b => acc.bind fun n => (hexDigit b).map (16 * n + ·)) (some 0)

def isHigh (n : Nat) : Bool := 0xD800 ≤ n && n < 0xDC00

def isLow (n : Nat) : Bool := 0xDC00 ≤ n && n < 0xE000

/-- The character a pair of surrogates stands for. -/
def pairChar (hi lo : Nat) : Char := Char.ofNat (0x10000 + (hi - 0xD800) * 1024 + (lo - 0xDC00))

/-- What stands between quotes, and the characters it decodes to. -/
inductive Chars : Bytes → List Char → Prop
  | nil : Chars [] []
  | plain {c : Char} {s : Bytes} {cs : List Char} : 32 ≤ c.toNat → c ≠ '"' → c ≠ '\\' → Chars s cs →
      Chars (String.utf8EncodeChar c ++ s) (c :: cs)
  | escape {b : UInt8} {c : Char} {s : Bytes} {cs : List Char} : simpleEscape b = some c → Chars s cs →
      Chars (backslash :: b :: s) (c :: cs)
  | unicode {a b c d : UInt8} {n : Nat} {s : Bytes} {cs : List Char} : hexNumber [a, b, c, d] = some n →
      isHigh n = false → isLow n = false → Chars s cs →
      Chars (backslash :: 117 :: a :: b :: c :: d :: s) (Char.ofNat n :: cs)
  | pair {a b c d a' b' c' d' : UInt8} {hi lo : Nat} {s : Bytes} {cs : List Char} :
      hexNumber [a, b, c, d] = some hi → isHigh hi = true → hexNumber [a', b', c', d'] = some lo → isLow lo = true →
      Chars s cs →
      Chars (backslash :: 117 :: a :: b :: c :: d :: backslash :: 117 :: a' :: b' :: c' :: d' :: s) (pairChar hi lo :: cs)

/-- In quotes. -/
def quoted (s : Bytes) : Bytes := quote :: (s ++ [quote])

/-! ## Values -/

inductive Doc where
  | null
  | bool (b : Bool)
  | num (text : Bytes)
  | str (s : List Char)
  | arr (items : List Doc)
  | obj (members : List (List Char × Doc))

/-- Items with commas between. -/
def commaList (items : List Bytes) : Bytes := [(44 : UInt8)].intercalate items

/-- A value's text and its tree, with the blanks around it. -/
structure Item where
  before : Bytes
  text : Bytes
  after : Bytes
  doc : Doc

def Item.bytes (i : Item) : Bytes := i.before ++ i.text ++ i.after

/-- `key : value`; `keyText` stands between the key's quotes. -/
structure Member where
  before : Bytes
  keyText : Bytes
  key : List Char
  after : Bytes
  value : Item

def Member.bytes (m : Member) : Bytes := m.before ++ quoted m.keyText ++ m.after ++ [58] ++ m.value.bytes

structure Item.Blank (i : Item) : Prop where
  before : IsSpace i.before
  after : IsSpace i.after

structure Member.Keyed (m : Member) : Prop where
  before : IsSpace m.before
  key : Chars m.keyText m.key
  after : IsSpace m.after
  value : m.value.Blank

def arrayText (blank : Bytes) (items : List Item) : Bytes := 91 :: (blank ++ commaList (items.map Item.bytes) ++ [93])

def objectText (blank : Bytes) (members : List Member) : Bytes :=
  openBrace :: (blank ++ commaList (members.map Member.bytes) ++ [closeBrace])

/-- A value's text, without blanks around it, and its tree. -/
inductive Denotes : Bytes → Doc → Prop
  | null : Denotes [110, 117, 108, 108] .null
  | true : Denotes [116, 114, 117, 101] (.bool true)
  | false : Denotes [102, 97, 108, 115, 101] (.bool false)
  | num {s : Bytes} : IsNumber s → Denotes s (.num s)
  | str {s : Bytes} {cs : List Char} : Chars s cs → Denotes (quoted s) (.str cs)
  | arr {blank : Bytes} {items : List Item} : IsSpace blank → (∀ i ∈ items, i.Blank) →
      (∀ i ∈ items, Denotes i.text i.doc) → Denotes (arrayText blank items) (.arr (items.map Item.doc))
  | obj {blank : Bytes} {members : List Member} : IsSpace blank → (∀ m ∈ members, m.Keyed) →
      (∀ m ∈ members, Denotes m.value.text m.value.doc) →
      Denotes (objectText blank members) (.obj (members.map fun m => (m.key, m.value.doc)))

/-- No object repeats a decoded key. -/
inductive Strict : Doc → Prop
  | null : Strict .null
  | bool (b : Bool) : Strict (.bool b)
  | num (s : Bytes) : Strict (.num s)
  | str (s : List Char) : Strict (.str s)
  | arr {items : List Doc} : (∀ d ∈ items, Strict d) → Strict (.arr items)
  | obj {members : List (List Char × Doc)} : (members.map Prod.fst).Nodup → (∀ m ∈ members, Strict m.2) →
      Strict (.obj members)

/-- A value's text with blanks around it, and its tree. -/
def IsText (s : Bytes) (d : Doc) : Prop :=
  ∃ before text after : Bytes, IsSpace before ∧ Denotes text d ∧ IsSpace after ∧ s = before ++ text ++ after

/-- An object's text with nothing after its closing brace. -/
def IsObject (s : Bytes) : Prop :=
  ∃ (before text : Bytes) (members : List (List Char × Doc)), IsSpace before ∧ Denotes text (.obj members) ∧
    s = before ++ text

/-! ## The bytes of a character -/

/-- A character's first byte tells how many bytes it has. -/
def utf8Len (b : UInt8) : Nat := if b < 128 then 1 else if 192 ≤ b ∧ b < 224 then 2 else if 224 ≤ b ∧ b < 240 then 3 else 4

variable {c : Char}

theorem utf8EncodeChar_ascii (h : c.toNat < 128) : String.utf8EncodeChar c = [UInt8.ofNat c.toNat] := by
  exact if_pos (Nat.le_of_lt_succ h)

variable {n : Nat}

theorem utf8Len_ofNat (h : n < 256) : utf8Len (UInt8.ofNat n) =
    if n < 128 then 1 else if 192 ≤ n ∧ n < 224 then 2 else if 224 ≤ n ∧ n < 240 then 3 else 4 := by
  have hn : (UInt8.ofNat n).toNat = n := UInt8.toNat_ofNat_of_lt' h
  unfold utf8Len
  simp only [UInt8.lt_iff_toNat_lt, UInt8.le_iff_toNat_le, hn]
  rfl

theorem le_ofNat (hlow : 128 ≤ n) (h : n < 256) : (128 : UInt8) ≤ UInt8.ofNat n := by
  rw [UInt8.le_iff_toNat_le, UInt8.toNat_ofNat_of_lt' h]
  exact hlow

/-- A character beyond ASCII: its first byte announces its length, and no byte is ASCII. -/
theorem utf8EncodeChar_wide (h : 128 ≤ c.toNat) :
    ∃ b s, String.utf8EncodeChar c = b :: s ∧ utf8Len b = s.length + 1 ∧ ∀ x ∈ b :: s, 128 ≤ x := by
  unfold String.utf8EncodeChar
  change 128 ≤ c.val.toNat at h
  rw [if_neg (by omega)]
  split
  · refine ⟨_, _, rfl, ?_, ?_⟩
    · rw [utf8Len_ofNat (by omega), if_neg (by omega), if_pos (by omega)]
      rfl
    · simp only [mem_cons, not_mem_nil, or_false]
      rintro x (rfl | rfl) <;> exact le_ofNat (by omega) (by omega)
  · split
    · refine ⟨_, _, rfl, ?_, ?_⟩
      · rw [utf8Len_ofNat (by omega), if_neg (by omega), if_neg (by omega), if_pos (by omega)]
        rfl
      · simp only [mem_cons, not_mem_nil, or_false]
        rintro x (rfl | rfl | rfl) <;> exact le_ofNat (by omega) (by omega)
    · refine ⟨_, _, rfl, ?_, ?_⟩
      · rw [utf8Len_ofNat (by omega), if_neg (by omega), if_neg (by omega), if_neg (by omega)]
        rfl
      · simp only [mem_cons, not_mem_nil, or_false]
        rintro x (rfl | rfl | rfl | rfl) <;> exact le_ofNat (by omega) (by omega)

/-- A character's bytes are as many as its first byte announces. -/
theorem utf8EncodeChar_head (c : Char) : ∃ b s, String.utf8EncodeChar c = b :: s ∧ utf8Len b = s.length + 1 := by
  by_cases h : c.toNat < 128
  · refine ⟨_, [], utf8EncodeChar_ascii h, ?_⟩
    rw [utf8Len_ofNat (by omega), if_pos h]
    rfl
  · obtain ⟨b, s, henc, hlen, -⟩ := utf8EncodeChar_wide (Nat.le_of_not_lt h)
    exact ⟨b, s, henc, hlen⟩

/-- No byte of a character that stands for itself closes the string or escapes. -/
theorem plain_of_char (hq : c ≠ '"') (hb : c ≠ '\\') : ∀ b ∈ String.utf8EncodeChar c, b ≠ quote ∧ b ≠ backslash := by
  intro b hmem
  by_cases hc : c.toNat < 128
  · rw [utf8EncodeChar_ascii hc, mem_singleton] at hmem
    subst hmem
    have hval : ∀ d : Char, d.toNat < 128 → UInt8.ofNat c.toNat = UInt8.ofNat d.toNat → c = d := by
      intro d hd heq
      have hnat := congrArg UInt8.toNat heq
      rw [UInt8.toNat_ofNat_of_lt' (by omega : c.toNat < 256), UInt8.toNat_ofNat_of_lt' (by omega : d.toNat < 256)] at hnat
      exact Char.toNat_inj.1 hnat
    exact ⟨fun h => hq (hval '"' (by decide) h), fun h => hb (hval '\\' (by decide) h)⟩
  · obtain ⟨b', s, henc, -, hall⟩ := utf8EncodeChar_wide (Nat.le_of_not_lt hc)
    rw [henc] at hmem
    have hge := hall b hmem
    refine ⟨?_, ?_⟩ <;> rintro rfl <;> revert hge <;> decide

variable {b : UInt8}

theorem hexDigit_some (h : hexDigit b = some n) : n < 16 ∧ b ≠ 43 ∧ b ≠ quote ∧ b ≠ backslash := by
  unfold hexDigit at h
  unfold quote backslash
  grind [UInt8.le_iff_toNat_le]

/-- Four hexadecimal digits: a 16-bit number, without a sign. -/
theorem hexNumber_four {a c d : UInt8} (h : hexNumber [a, b, c, d] = some n) :
    n < 65536 ∧ ∀ x ∈ [a, b, c, d], x ≠ 43 ∧ x ≠ quote ∧ x ≠ backslash := by
  unfold hexNumber at h
  simp only [foldl_cons, foldl_nil, Option.bind_some, Option.bind_eq_some_iff, Option.map_eq_some_iff] at h
  obtain ⟨-, ⟨-, ⟨-, ⟨na, ha, rfl⟩, nb, hb, rfl⟩, nc, hc, rfl⟩, nd, hd, rfl⟩ := h
  obtain ⟨hna, hpa⟩ := hexDigit_some ha
  obtain ⟨hnb, hpb⟩ := hexDigit_some hb
  obtain ⟨hnc, hpc⟩ := hexDigit_some hc
  obtain ⟨hnd, hpd⟩ := hexDigit_some hd
  simp only [forall_mem_cons]
  exact ⟨by omega, hpa, hpb, hpc, hpd, nofun⟩

/-! ## The bytes of a number -/

/-- A digit, a sign, a point or an exponent's mark. -/
def isNumberByte (b : UInt8) : Bool := 48 ≤ b && b ≤ 57 || b = 43 || b = 45 || b = 46 || b = 69 || b = 101

variable {s : Bytes} {d : Doc}

theorem isNumberByte_digits (h : ∀ b ∈ s, IsDigit b) : ∀ b ∈ s, isNumberByte b = true := by
  intro b hb
  obtain ⟨hlow, hhigh⟩ := h b hb
  unfold isNumberByte
  rw [decide_eq_true hlow, decide_eq_true hhigh]
  rfl

theorem IsFraction.bytes (h : IsFraction s) : ∀ b ∈ s, isNumberByte b = true := by
  obtain rfl | ⟨digits, hdigits, rfl⟩ := h
  · exact nofun
  · exact forall_mem_cons.2 ⟨by decide, isNumberByte_digits hdigits.2⟩

theorem IsExponent.bytes (h : IsExponent s) : ∀ b ∈ s, isNumberByte b = true := by
  obtain rfl | ⟨e, sign, digits, he, hsign, hdigits, rfl⟩ := h
  · exact nofun
  · refine forall_mem_cons.2 ⟨?_, forall_mem_append.2 ⟨?_, isNumberByte_digits hdigits.2⟩⟩
    · obtain rfl | rfl := he <;> decide
    · obtain rfl | rfl | rfl := hsign <;> exact all_eq_true.1 rfl

theorem IsWhole.bytes (h : IsWhole s) : ∀ b ∈ s, isNumberByte b = true := by
  obtain rfl | h := h
  · exact all_eq_true.1 rfl
  · exact isNumberByte_digits h.1.2

theorem IsNumber.bytes (h : IsNumber s) : ∀ b ∈ s, isNumberByte b = true := by
  obtain ⟨sign, whole, fraction, exponent, hsign, hwhole, hfraction, hexponent, rfl⟩ := h
  have hsign' : ∀ b ∈ sign, isNumberByte b = true := by
    obtain rfl | rfl := hsign <;> exact all_eq_true.1 rfl
  exact forall_mem_append.2 ⟨forall_mem_append.2 ⟨forall_mem_append.2 ⟨hsign', hwhole.bytes⟩,
    hfraction.bytes⟩, hexponent.bytes⟩

theorem IsWhole.ne_nil (h : IsWhole s) : s ≠ [] := by
  obtain rfl | h := h
  · exact cons_ne_nil _ _
  · exact h.1.1

theorem IsNumber.ne_nil (h : IsNumber s) : s ≠ [] := by
  obtain ⟨sign, whole, fraction, exponent, -, hwhole, -, -, rfl⟩ := h
  intro hnil
  simp only [append_eq_nil_iff] at hnil
  exact hwhole.ne_nil hnil.1.1.2

variable {p r : Bytes}

/-- A text that ends in a digit, if it is not empty. -/
def DigitLast (p : Bytes) : Prop := ∀ b ∈ p.getLast?, IsDigit b

theorem DigitLast.right {u : Bytes} (h : DigitLast (u ++ p)) : DigitLast p := by
  intro b hb
  refine h b ?_
  rw [getLast?_append, hb]
  rfl

theorem DigitLast.tail {b : UInt8} (h : DigitLast (b :: p)) (hb : ¬IsDigit b) : p ≠ [] ∧ DigitLast p :=
  ⟨fun hp => hb (h b (by rw [hp]; rfl)), DigitLast.right (u := [b]) h⟩

theorem IsDigits.of_append (h : IsDigits (p ++ r)) (hp : p ≠ []) : IsDigits p :=
  ⟨hp, fun b hb => h.2 b (mem_append_left r hb)⟩

theorem IsWhole.of_append (h : IsWhole (p ++ r)) (hp : p ≠ []) : IsWhole p := by
  obtain ⟨b, bs, rfl⟩ := exists_cons_of_ne_nil hp
  obtain heq | ⟨hdigits, hhead⟩ := h
  · obtain ⟨rfl, hnil⟩ := cons.inj heq
    rw [(append_eq_nil_iff.1 hnil).1]
    exact .inl rfl
  · exact .inr ⟨hdigits.of_append hp, hhead⟩

theorem IsFraction.of_append (h : IsFraction (p ++ r)) (hd : DigitLast p) : IsFraction p := by
  cases p with
  | nil => exact .inl rfl
  | cons b bs =>
    obtain heq | ⟨digits, hdigits, heq⟩ := h
    · cases heq
    obtain ⟨rfl, rfl⟩ := cons.inj heq
    exact .inr ⟨bs, hdigits.of_append (hd.tail (by decide)).1, rfl⟩

theorem IsExponent.of_append (h : IsExponent (p ++ r)) (hd : DigitLast p) : IsExponent p := by
  cases p with
  | nil => exact .inl rfl
  | cons b bs =>
    obtain heq | ⟨e, sign, digits, he, hsign, hdigits, heq⟩ := h
    · cases heq
    obtain ⟨rfl, hrest⟩ := cons.inj heq
    obtain ⟨hbs, hd⟩ := hd.tail (by obtain rfl | rfl := he <;> decide)
    obtain rfl | ⟨c, rfl, hc⟩ : sign = [] ∨ ∃ c, sign = [c] ∧ ¬IsDigit c := by
      obtain rfl | rfl | rfl := hsign
      exacts [.inl rfl, .inr ⟨43, rfl, by decide⟩, .inr ⟨45, rfl, by decide⟩]
    · obtain rfl : bs ++ r = digits := hrest
      exact .inr ⟨b, [], bs, he, hsign, hdigits.of_append hbs, rfl⟩
    · obtain ⟨c', cs, rfl⟩ := exists_cons_of_ne_nil hbs
      obtain ⟨rfl, rfl⟩ := cons.inj hrest
      exact .inr ⟨b, [c'], cs, he, hsign, hdigits.of_append (hd.tail hc).1, rfl⟩

/-- **A beginning of a number that ends in a digit is a number.** -/
theorem IsNumber.of_append (h : IsNumber (p ++ r)) (hp : p ≠ []) (hd : DigitLast p) : IsNumber p := by
  obtain ⟨sign, whole, fraction, exponent, hsign, hwhole, hfraction, hexponent, heq⟩ := h
  -- by the part that the beginning breaks off in
  rw [append_assoc, append_assoc] at heq
  obtain ⟨q, hq, -⟩ | ⟨q, rfl, hq⟩ := append_eq_append_iff.1 heq
  · obtain ⟨b, bs, rfl⟩ := exists_cons_of_ne_nil hp
    obtain rfl | rfl := hsign
    · cases hq
    obtain ⟨rfl, hnil⟩ := cons.inj hq
    exact absurd (append_eq_nil_iff.1 hnil.symm).1 (hd.tail (by decide)).1
  have hsome : q ≠ [] := by
    rintro rfl
    rw [append_nil] at hp hd
    obtain rfl | rfl := hsign
    exacts [hp rfl, absurd (hd 45 rfl) (by decide)]
  obtain ⟨q', rfl, hq'⟩ | ⟨q', rfl, -⟩ := append_eq_append_iff.1 hq
  · obtain ⟨q, rfl, rfl⟩ | ⟨q, rfl, -⟩ := append_eq_append_iff.1 hq'
    · exact ⟨sign, whole, fraction, q, hsign, hwhole, hfraction, hexponent.of_append hd.right.right.right, by simp⟩
    · exact ⟨sign, whole, q', [], hsign, hwhole, hfraction.of_append hd.right.right, .inl rfl, by simp⟩
  · exact ⟨sign, q, [], [], hsign, hwhole.of_append hsome, .inl rfl, .inl rfl, by simp⟩

/-! ## Lists with commas -/

theorem commaList_singleton (t : Bytes) : commaList [t] = t := by simp [commaList]

theorem commaList_cons (t t' : Bytes) (items : List Bytes) :
    commaList (t :: t' :: items) = t ++ 44 :: commaList (t' :: items) := by
  simp [commaList, intercalate]

/-! ## Texts -/

theorem isWs_numberByte (h : isNumberByte b = true) : isWs b = false := by
  obtain ⟨⟨i⟩⟩ := b
  revert i
  decide +kernel

theorem isText_of_dropWhile (h : IsText (s.dropWhile isWs) d) : IsText s d := by
  obtain ⟨before, text, after, hbefore, htext, hafter, heq⟩ := h
  refine ⟨s.takeWhile isWs ++ before, text, after,
    forall_mem_append.2 ⟨fun _ => mem_takeWhile_imp, hbefore⟩, htext, hafter, ?_⟩
  rw [append_assoc, append_assoc, ← append_assoc before, ← heq, takeWhile_append_dropWhile]

/-- Where a number begins. -/
def startsNumber (b : UInt8) : Bool := b = 45 || 48 ≤ b && b ≤ 57

theorem IsNumber.head (h : IsNumber s) : ∃ b bs, s = b :: bs ∧ startsNumber b = true := by
  obtain ⟨sign, whole, fraction, exponent, hsign, hwhole, -, -, rfl⟩ := h
  obtain rfl | rfl := hsign
  · obtain ⟨b, bs, rfl⟩ := exists_cons_of_ne_nil hwhole.ne_nil
    refine ⟨b, bs ++ fraction ++ exponent, rfl, ?_⟩
    obtain heq | h := hwhole
    · obtain ⟨rfl, -⟩ := cons.inj heq
      decide
    · obtain ⟨hlow, hhigh⟩ := h.1.2 b mem_cons_self
      unfold startsNumber
      rw [decide_eq_true hlow, decide_eq_true hhigh, Bool.and_self, Bool.or_true]
  · exact ⟨45, whole ++ fraction ++ exponent, rfl, by decide⟩

/-- No value starts with a blank, and only a number starts as numbers do. -/
theorem denotes_head {text : Bytes} (h : Denotes text d) :
    ∃ b bs, text = b :: bs ∧ isWs b = false ∧ (startsNumber b = true → IsNumber text ∧ d = .num text) := by
  cases h with
  | null | true | false | str _ | arr _ _ _ | obj _ _ _ =>
    exact ⟨_, _, rfl, by decide, fun h => absurd h (by decide)⟩
  | num hnum =>
    obtain ⟨b, bs, rfl, -⟩ := IsNumber.head hnum
    exact ⟨b, bs, rfl, isWs_numberByte (IsNumber.bytes hnum b mem_cons_self), fun _ => ⟨hnum, rfl⟩⟩

theorem dropWhile_space {w : Bytes} (hw : IsSpace w) {bs : Bytes} (hb : isWs b = false) :
    (w ++ b :: bs).dropWhile isWs = b :: bs := by
  rw [dropWhile_append_of_pos hw, dropWhile_cons_of_neg (by rw [hb]; decide)]

theorem IsText.dropWhile (h : IsText s d) :
    ∃ text after, Denotes text d ∧ IsSpace after ∧ s.dropWhile isWs = text ++ after := by
  obtain ⟨before, text, after, hbefore, htext, hafter, rfl⟩ := h
  refine ⟨text, after, htext, hafter, ?_⟩
  obtain ⟨b, bs, rfl, hb, -⟩ := denotes_head htext
  rw [append_assoc, cons_append, dropWhile_space hbefore hb]

/-- The buffer begins as a number does. -/
def NumberBegun (s : Bytes) : Prop := ∃ b bs, s.dropWhile isWs = b :: bs ∧ startsNumber b = true

theorem NumberBegun.append (h : NumberBegun s) (t : Bytes) : NumberBegun (s ++ t) := by
  obtain ⟨b, bs, hs, hb⟩ := h
  refine ⟨b, bs ++ t, ?_, hb⟩
  rw [dropWhile_append, hs]
  rfl

theorem numberBegun_of_isText {text : Bytes} (h : IsText s (.num text)) : NumberBegun s := by
  obtain ⟨text', after, htext, -, hs⟩ := IsText.dropWhile h
  cases htext with
  | num hnum =>
    obtain ⟨b, bs, rfl, hb⟩ := IsNumber.head hnum
    exact ⟨b, bs ++ after, hs, hb⟩

/-- What stands before the next blank. -/
def word (s : Bytes) : Bytes := (s.dropWhile isWs).takeWhile (!isWs ·)

end Hipfire.Json

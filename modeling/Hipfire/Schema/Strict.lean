import Hipfire.Schema.Scan
/-!
# Strict — a scan that meets no repeated key has read a strict document

Scanning a value's text and what follows it is scanning what follows from a later state (`scans_denotes`): the innermost frame
has one value more, and if no repeated key is noted by then, none was noted before and the value itself repeats none.
-/
namespace Hipfire.Schema

open Json List

variable {lib : Serde} {root : SchemaNode}

/-! ## Strings -/

variable {s : Bytes} {cs : List Char} {fs : List Frame} {n : Nat} {st' : ScanState}
  {b a c d : UInt8} (st : ScanState) (rest : Bytes)

theorem hex_of_hexNumber (h : hexNumber [a, b, c, d] = some n) : hex [a, b, c, d] = some n := by
  have hplus := ((hexNumber_four h).2 a mem_cons_self).1
  unfold hex
  rw [if_neg (by simp : ¬ [a, b, c, d].length < 4)]
  split
  · rename_i heq
    injection heq with heq
    exact absurd heq hplus
  · exact h

theorem fromU32_of_plain (hn : n < 65536) (hhigh : isHigh n = false) (hlow : isLow n = false) :
    fromU32 n = some (Char.ofNat n) := by
  unfold isHigh at hhigh
  unfold isLow at hlow
  simp only [Bool.and_eq_false_iff, decide_eq_false_iff_not] at hhigh hlow
  exact if_pos (by unfold Nat.isValidChar; omega)

theorem fromU32_of_pair {hi lo : Nat} (hhi : isHigh hi = true) (hlo : isLow lo = true) :
    fromU32 (pairCode hi lo) = some (pairChar hi lo) := by
  unfold isHigh at hhi
  unfold isLow at hlo
  simp only [Bool.and_eq_true, decide_eq_true_eq] at hhi hlo
  exact if_pos (by unfold Nat.isValidChar pairCode; omega)

/-- One turn of the scan of a string reads the piece as the character. -/
def Reads (lib : Serde) (piece : Bytes) (c : Char) : Prop :=
  ∀ (fuel : Nat) (acc : Text) (bs : Bytes),
    scanString lib (fuel + 1) acc (piece ++ bs) = scanString lib fuel (acc ++ [c]) bs

theorem reads_plain {c : Char} (hq : c ≠ '"') (hb : c ≠ '\\') : Reads lib (String.utf8EncodeChar c) c := by
  intro fuel acc bs
  obtain ⟨b, tail, henc, hlen⟩ := utf8EncodeChar_head c
  have hplain := plain_of_char hq hb b (henc ▸ mem_cons_self)
  have htake : (b :: (tail ++ bs)).take (utf8Len b) = String.utf8EncodeChar c := by
    rw [hlen, henc, take_succ_cons, take_left' rfl]
  have hdrop : (b :: (tail ++ bs)).drop (utf8Len b) = bs := by
    rw [hlen, drop_succ_cons, drop_left' rfl]
  conv_lhs => rw [henc, cons_append, scanString.eq_def]
  simp only [if_neg hplain.1, if_neg hplain.2]
  rw [htake, hdrop, fromUtf8Lossy_char]

theorem backslash_ne_quote : backslash ≠ quote := by decide

theorem reads_escape {c : Char} (h : simpleEscape b = some c) : Reads lib [backslash, b] c := by
  intro fuel acc bs
  have hu : b ≠ 117 := by
    rintro rfl
    revert h
    unfold simpleEscape
    simp
  conv_lhs => rw [cons_append, singleton_append, scanString.eq_def]
  simp only [if_neg backslash_ne_quote, if_true, if_neg hu, h, Option.toList_some]

theorem reads_unicode (hn : hexNumber [a, b, c, d] = some n) (hhigh : isHigh n = false) (hlow : isLow n = false) :
    Reads lib [backslash, 117, a, b, c, d] (Char.ofNat n) := by
  intro fuel acc bs
  conv_lhs => rw [scanString.eq_def]
  simp only [cons_append, nil_append, if_neg backslash_ne_quote, if_true, take_succ_cons, take_zero,
    drop_succ_cons, drop_zero, hex_of_hexNumber hn, hhigh, Bool.false_eq_true, if_false,
    fromU32_of_plain (hexNumber_four hn).1 hhigh hlow, Option.getD_some]

theorem scanString_surrogates {cs : Bytes} {hi lo : Nat} (hhi : hex (cs.take 4) = some hi) (hhigh : isHigh hi = true)
    (hlo : hex ((cs.drop 6).take 4) = some lo) (hlow : isLow lo = true) (fuel : Nat) (acc : Text) :
    scanString lib (fuel + 1) acc (backslash :: 117 :: cs) =
      scanString lib fuel (acc ++ [(fromU32 (pairCode hi lo)).getD replacement]) (cs.drop 10) := by
  conv_lhs => rw [scanString.eq_def]
  simp only [if_neg backslash_ne_quote, if_true, hhi, hhigh, hlo, hlow]

theorem reads_pair {a' b' c' d' : UInt8} {hi lo : Nat} (hhi : hexNumber [a, b, c, d] = some hi) (hhigh : isHigh hi = true)
    (hlo : hexNumber [a', b', c', d'] = some lo) (hlow : isLow lo = true) :
    Reads lib [backslash, 117, a, b, c, d, backslash, 117, a', b', c', d'] (pairChar hi lo) := by
  intro fuel acc bs
  have hread := @scanString_surrogates lib (a :: b :: c :: d :: backslash :: 117 :: a' :: b' :: c' :: d' :: bs) hi lo
    (hex_of_hexNumber hhi) hhigh (hex_of_hexNumber hlo) hlow fuel acc
  rw [fromU32_of_pair hhigh hlow, Option.getD_some] at hread
  exact hread

/-- The scan of a string reads the text as the characters, up to the closing quote. -/
def Closes (lib : Serde) (s : Bytes) (cs : List Char) : Prop :=
  ∀ (fuel : Nat) (acc : Text) (rest : Bytes), s.length < fuel →
    scanString lib fuel acc (s ++ quote :: rest) = .closed (acc ++ cs) rest

theorem Reads.closes {c : Char} {piece : Bytes} (h : Reads lib piece c) (hne : piece ≠ []) (hs : Closes lib s cs) :
    Closes lib (piece ++ s) (c :: cs) := by
  intro fuel acc rest hfuel
  have hpos := length_pos_iff.2 hne
  rw [length_append] at hfuel
  obtain ⟨fuel, rfl⟩ : ∃ f, fuel = f + 1 := ⟨fuel - 1, by omega⟩
  rw [append_assoc, h, hs fuel _ rest (by omega), append_assoc, singleton_append]

variable (lib) in
theorem scanString_chars (h : Chars s cs) : Closes lib s cs := by
  induction h with
  | nil =>
    intro fuel acc rest hfuel
    obtain ⟨fuel, rfl⟩ : ∃ f, fuel = f + 1 := ⟨fuel - 1, by omega⟩
    rw [nil_append, scanString.eq_def, append_nil]
    exact if_pos rfl
  | plain _ hq hb _ ih =>
    refine (reads_plain hq hb).closes (ne_nil_of_length_pos ?_) ih
    rw [String.length_utf8EncodeChar]
    exact Char.utf8Size_pos _
  | escape hc _ ih => exact (reads_escape hc).closes nofun ih
  | unicode hn hhigh hlow _ ih => exact (reads_unicode hn hhigh hlow).closes nofun ih
  | pair hhi hhigh hlo hlow _ ih => exact (reads_pair hhi hhigh hlo hlow).closes nofun ih

/-! ## Steps of the scan -/

/-- The scan comes from one state and buffer to another. -/
def Scans (lib : Serde) (root : SchemaNode) (st : ScanState) (s : Bytes) (st' : ScanState) (rest : Bytes) : Prop :=
  ∀ fuel, s.length ≤ fuel → ∃ fuel', rest.length ≤ fuel' ∧ scanLoop lib root fuel st s = scanLoop lib root fuel' st' rest

theorem Scans.refl (s : Bytes) : Scans lib root st s st s := fun fuel h => ⟨fuel, h, rfl⟩

theorem Scans.trans {st st'' : ScanState} {t r : Bytes} (h : Scans lib root st s st' t)
    (h' : Scans lib root st' t st'' r) : Scans lib root st s st'' r := by
  intro fuel hfuel
  obtain ⟨f, hf, heq⟩ := h fuel hfuel
  obtain ⟨f', hf', heq'⟩ := h' f hf
  exact ⟨f', hf', heq.trans heq'⟩

theorem Scans.step {st : ScanState} {bs rest : Bytes}
    (h : scanByte lib root st b bs = .more st' rest) (hle : rest.length ≤ bs.length) :
    Scans lib root st (b :: bs) st' rest := by
  intro fuel hfuel
  rw [length_cons] at hfuel
  obtain ⟨fuel, rfl⟩ : ∃ f, fuel = f + 1 := ⟨fuel - 1, by omega⟩
  refine ⟨fuel, by omega, ?_⟩
  rw [scanLoop, h]

theorem Scans.byte {st : ScanState} {rest : Bytes} (h : scanByte lib root st b rest = .more st' rest) :
    Scans lib root st (b :: rest) st' rest := Scans.step h le_rfl

theorem Scans.done {st : ScanState} (h : Scans lib root st s st' []) : scanLoop lib root s.length st s = st' := by
  obtain ⟨fuel, -, heq⟩ := h s.length le_rfl
  rw [heq]
  cases fuel <;> rfl

/-- The frames and the note of repeated keys, alone. -/
structure Same (st st' : ScanState) : Prop where
  frames : st'.frames = st.frames
  duplicateKeys : st'.duplicateKeys = st.duplicateKeys

theorem structural_ne (h : isWs b = true ∨ isDelimiter b = false) :
    b ≠ quote ∧ b ≠ openBrace ∧ b ≠ 91 ∧ b ≠ closeBrace ∧ b ≠ 93 ∧ b ≠ 44 ∧ b ≠ 58 := by
  refine ⟨?_, ?_, ?_, ?_, ?_, ?_, ?_⟩ <;> rintro rfl <;> revert h <;> decide

variable (lib root) in
theorem scans_space {w : Bytes} (h : IsSpace w) : ∀ (st : ScanState) (rest : Bytes),
    ∃ st', Scans lib root st (w ++ rest) st' rest ∧ Same st st' := by
  induction w with
  | nil => exact fun st rest => ⟨st, Scans.refl st rest, rfl, rfl⟩
  | cons b w ih =>
    intro st rest
    have hb : isWs b = true := h b mem_cons_self
    obtain ⟨st', hscan, hsame⟩ := ih (forall_mem_cons.1 h).2 { st with literalTail := false } rest
    have hstep : scanByte lib root st b (w ++ rest) = .more { st with literalTail := false } (w ++ rest) := by
      unfold scanByte
      simp [structural_ne (.inl hb), hb]
    exact ⟨st', (Scans.byte hstep).trans hscan, hsame.frames, hsame.duplicateKeys⟩

theorem scanByte_quoted (h : Chars s cs) (st : ScanState) (rest : Bytes) :
    scanByte lib root st quote (s ++ [quote] ++ rest) =
      if atKey st.frames then .more (st.endKey cs) rest else .more st.endValue rest := by
  have hread := scanString_chars lib h ((s ++ [quote] ++ rest).length + 1) [] rest (by
    simp only [length_append]
    omega)
  rw [nil_append] at hread
  rw [append_assoc, singleton_append] at hread ⊢
  unfold scanByte
  rw [if_pos rfl, hread]

theorem scans_quoted (h : Chars s cs) {st : ScanState} (rest : Bytes)
    (hstep : (if atKey st.frames then Step.more (st.endKey cs) rest else .more st.endValue rest) = .more st' rest) :
    Scans lib root st (quoted s ++ rest) st' rest := by
  unfold quoted
  rw [cons_append]
  refine Scans.step ((scanByte_quoted h st rest).trans hstep) ?_
  simp only [length_append]
  omega

/-! ## Literals -/

theorem ScanState.tail_same (ctx : NumCtx) (text : Bytes) (st : ScanState) : Same st (st.tail lib ctx text) := by
  unfold ScanState.tail
  split
  · exact ⟨rfl, rfl⟩
  · split
    · cases ctx <;> exact ⟨rfl, rfl⟩
    · exact ⟨rfl, rfl⟩

variable (lib root) in
theorem ScanState.literal_same (text rest : Bytes) : Same st.endValue (st.literal lib root text rest) := by
  cases rest with
  | nil => exact ScanState.tail_same _ text st.endValue
  | cons _ _ => exact ⟨rfl, rfl⟩

/-- Nothing that could go on with a literal follows. -/
def Ends (rest : Bytes) : Prop := ∀ b ∈ rest.head?, isDelimiter b = true

variable {text : Bytes}

theorem scans_literal (hne : text ≠ []) (hall : ∀ b ∈ text, isDelimiter b = false) (st : ScanState)
    {rest : Bytes} (hrest : Ends rest) : Scans lib root st (text ++ rest) (st.literal lib root text rest) rest := by
  obtain ⟨b, bs, rfl⟩ := exists_cons_of_ne_nil hne
  have hb := hall b mem_cons_self
  have hhead : ∀ c ∈ rest.head?, (!isDelimiter c) = false := by
    intro c hc
    rw [hrest c hc]
    rfl
  have htake : (b :: (bs ++ rest)).takeWhile (!isDelimiter ·) = b :: bs := by
    rw [← cons_append, takeWhile_append_of_pos (fun c hc => by rw [hall c hc]; rfl)]
    cases rest with
    | nil => simp
    | cons c cs => rw [takeWhile_cons_of_neg (by rw [hhead c rfl]; decide), append_nil]
  have hdrop : (b :: (bs ++ rest)).dropWhile (!isDelimiter ·) = rest := by
    rw [← cons_append, dropWhile_append_of_pos (fun c hc => by rw [hall c hc]; rfl)]
    cases rest with
    | nil => rfl
    | cons c cs => rw [dropWhile_cons_of_neg (by rw [hhead c rfl]; decide)]
  have hws : isWs b = false := by
    unfold isDelimiter at hb
    simp only [Bool.or_eq_false_iff] at hb
    exact hb.2
  rw [cons_append]
  refine Scans.step ?_ ?_
  · unfold scanByte
    simp only [structural_ne (.inr hb), if_false, Bool.or_self, Bool.false_eq_true, decide_false, hws]
    rw [htake, hdrop]
  · rw [length_append]
    omega

/-! ## Values -/

/-- The scan passes over the text wherever a value may stand. -/
def Scanned (lib : Serde) (root : SchemaNode) (text : Bytes) (d : Doc) : Prop :=
  ∀ (st : ScanState) (rest : Bytes), atKey st.frames = false → Ends rest →
    ∃ st', Scans lib root st (text ++ rest) st' rest ∧ st'.frames = finishHead st.frames ∧
      (st'.duplicateKeys = false → st.duplicateKeys = false ∧ Strict d)

theorem scanned_literal {d : Doc} (hne : text ≠ []) (hall : ∀ b ∈ text, isDelimiter b = false)
    (hd : Strict d) : Scanned lib root text d := by
  intro st rest _ hrest
  have hsame := st.literal_same lib root text rest
  exact ⟨_, scans_literal hne hall st hrest, hsame.frames, fun hdup => ⟨hsame.duplicateKeys ▸ hdup, hd⟩⟩

theorem isDelimiter_numberByte (h : isNumberByte b = true) : isDelimiter b = false := by
  obtain ⟨⟨i⟩⟩ := b
  revert i
  decide +kernel

theorem scanned_number (h : IsNumber s) : Scanned lib root s (.num s) :=
  scanned_literal h.ne_nil (fun b hb => isDelimiter_numberByte (h.bytes b hb)) (.num s)

theorem scanned_string (h : Chars s cs) : Scanned lib root (quoted s) (.str cs) := by
  intro st rest hkey _
  exact ⟨st.endValue, scans_quoted h rest (by rw [hkey]; rfl), rfl, fun hdup => ⟨hdup, .str cs⟩⟩

theorem ends_delimiter (h : isDelimiter b = true) (rest : Bytes) : Ends (b :: rest) := by
  intro c hc
  injection hc with hc
  exact hc ▸ h

theorem ends_space {w rest : Bytes} (hw : IsSpace w) (hrest : Ends rest) : Ends (w ++ rest) := by
  cases w with
  | nil => exact hrest
  | cons b w =>
    have hb : isWs b = true := hw b mem_cons_self
    refine ends_delimiter ?_ (w ++ rest)
    unfold isDelimiter
    rw [hb, Bool.or_true]

theorem Scanned.item {i : Item} (hscan : Scanned lib root i.text i.doc) (hblank : i.Blank) {st : ScanState} {rest : Bytes}
    (hkey : atKey st.frames = false) (hrest : Ends rest) :
    ∃ st', Scans lib root st (i.bytes ++ rest) st' rest ∧ st'.frames = finishHead st.frames ∧
      (st'.duplicateKeys = false → st.duplicateKeys = false ∧ Strict i.doc) := by
  obtain ⟨st₁, hs₁, hsame₁⟩ := scans_space lib root hblank.before st (i.text ++ (i.after ++ rest))
  obtain ⟨st₂, hs₂, hframes, hdup⟩ := hscan st₁ (i.after ++ rest) (by rw [hsame₁.frames, hkey])
    (ends_space hblank.after hrest)
  obtain ⟨st₃, hs₃, hsame₃⟩ := scans_space lib root hblank.after st₂ rest
  refine ⟨st₃, ?_, ?_, fun h => ?_⟩
  · unfold Item.bytes
    rw [append_assoc, append_assoc]
    exact hs₁.trans (hs₂.trans hs₃)
  · rw [hsame₃.frames, hframes, hsame₁.frames]
  · rw [hsame₃.duplicateKeys] at h
    rw [← hsame₁.duplicateKeys]
    exact hdup h

/-! ## Sequences -/

theorem ScanState.comma_tail : st.comma.frames.tail = st.frames.tail ∧ st.comma.duplicateKeys = st.duplicateKeys := by
  unfold ScanState.comma
  split <;> simp [*]

variable {α : Type} {bytes : α → Bytes} {At : List Frame → Prop} {Good : List Frame → List α → Prop} {l : List α}

/-- An element, and after it a comma where the next may stand. -/
def Element (lib : Serde) (root : SchemaNode) (bytes : α → Bytes) (At : List Frame → Prop)
    (Good : List Frame → List α → Prop) (a : α) : Prop :=
  ∀ (st : ScanState) (rest : Bytes), At st.frames → Ends rest → ∃ st', Scans lib root st (bytes a ++ rest) st' rest ∧
    At st'.comma.frames ∧ st'.frames.tail = st.frames.tail ∧
    (st'.duplicateKeys = false → st.duplicateKeys = false ∧ ∀ l, Good st'.comma.frames l → Good st.frames (a :: l))

theorem scans_commaList (hnil : ∀ fs, Good fs []) : ∀ {l : List α}, (∀ a ∈ l, Element lib root bytes At Good a) →
    ∀ {st : ScanState} {rest : Bytes}, At st.frames → Ends rest →
      ∃ st', Scans lib root st (commaList (l.map bytes) ++ rest) st' rest ∧ st'.frames.tail = st.frames.tail ∧
        (st'.duplicateKeys = false → st.duplicateKeys = false ∧ Good st.frames l)
  | [], _, st, rest, _, _ => ⟨st, Scans.refl st rest, rfl, fun h => ⟨h, hnil _⟩⟩
  | [a], hone, st, rest, hst, hrest => by
    obtain ⟨st', hs, -, htail, hdup⟩ := hone a mem_cons_self _ _ hst hrest
    refine ⟨st', ?_, htail, fun h => ?_⟩
    · rw [map_singleton, commaList_singleton]
      exact hs
    · exact ⟨(hdup h).1, (hdup h).2 [] (hnil _)⟩
  | a :: b :: l, hone, st, rest, hst, hrest => by
    obtain ⟨st₁, hs₁, hat, htail₁, hdup₁⟩ := hone a mem_cons_self _ _ hst
      (ends_delimiter (by decide : isDelimiter 44 = true) (commaList ((b :: l).map bytes) ++ rest))
    obtain ⟨htail₂, hdup₂⟩ := st₁.comma_tail
    obtain ⟨st₃, hs₃, htail₃, hdup₃⟩ := scans_commaList hnil (forall_mem_cons.1 hone).2 hat hrest
    refine ⟨st₃, ?_, htail₃.trans (htail₂.trans htail₁), fun h => ?_⟩
    · rw [map_cons, map_cons, commaList_cons, append_assoc, cons_append]
      exact hs₁.trans ((Scans.byte rfl).trans hs₃)
    · obtain ⟨h₂, hl⟩ := hdup₃ h
      obtain ⟨h₁, ha⟩ := hdup₁ (hdup₂ ▸ h₂)
      exact ⟨h₁, ha _ hl⟩

theorem scanned_brackets {opening closing : UInt8} {opened : ScanState → ScanState} {blank : Bytes} {d : Doc}
    (hopen : ∀ st rest, scanByte lib root st opening rest = .more (opened st) rest)
    (hclose : ∀ st rest, scanByte lib root st closing rest = .more st.close rest) (hends : isDelimiter closing = true)
    (hopened : ∀ st, At (opened st).frames ∧ (opened st).frames.tail = st.frames ∧
      (opened st).duplicateKeys = st.duplicateKeys)
    (hnil : ∀ fs, Good fs []) (hblank : IsSpace blank) (hone : ∀ a ∈ l, Element lib root bytes At Good a)
    (hd : ∀ st, Good (opened st).frames l → Strict d) :
    Scanned lib root (opening :: (blank ++ commaList (l.map bytes) ++ [closing])) d := by
  intro st rest _ _
  obtain ⟨hat, htail, hsame⟩ := hopened st
  obtain ⟨st₁, hs₁, hsame₁⟩ := scans_space lib root hblank (opened st) (commaList (l.map bytes) ++ (closing :: rest))
  rw [← hsame₁.frames] at hat htail
  obtain ⟨st₂, hs₂, htail₂, hdup⟩ := scans_commaList hnil hone hat (ends_delimiter hends rest)
  refine ⟨st₂.close, ?_, ?_, fun h => ?_⟩
  · rw [cons_append, append_assoc, append_assoc, singleton_append]
    exact (Scans.byte (hopen _ _)).trans (hs₁.trans (hs₂.trans (Scans.byte (hclose _ _))))
  · exact congrArg finishHead (htail₂.trans htail)
  · obtain ⟨h₁, hgood⟩ := hdup h
    rw [hsame₁.duplicateKeys, hsame] at h₁
    exact ⟨h₁, hd st (hsame₁.frames ▸ hgood)⟩

/-! ## Arrays -/

def Frame.isArray : Frame → Bool
  | .array _ _ _ _ _ => true
  | .object _ _ _ _ => false

theorem inArray_finish {fs : List Frame} (h : fs.head?.any Frame.isArray = true) : atKey fs = false ∧
    ∀ {st : ScanState}, st.frames = finishHead fs →
      st.comma.frames.head?.any Frame.isArray = true ∧ st.frames.tail = fs.tail := by
  match fs, h with
  | .array _ _ _ _ _ :: fs, _ =>
    refine ⟨rfl, fun hst => ?_⟩
    unfold ScanState.comma
    rw [hst]
    exact ⟨rfl, rfl⟩

theorem scanned_array {blank : Bytes} {items : List Item} (hblank : IsSpace blank) (hitems : ∀ i ∈ items, i.Blank)
    (hscan : ∀ i ∈ items, Scanned lib root i.text i.doc) :
    Scanned lib root (arrayText blank items) (.arr (items.map Item.doc)) := by
  refine @scanned_brackets _ _ _ Item.bytes (·.head?.any Frame.isArray = true) (fun _ l => ∀ i ∈ l, Strict i.doc) _ _ _ _ _ _
    (fun _ _ => rfl) (fun _ _ => rfl) (by decide) (fun st => ⟨?_, rfl, rfl⟩) nofun hblank (fun i hi st rest hst hrest => ?_)
    fun st h => .arr (forall_mem_map.2 h)
  · unfold ScanState.openArray
    dsimp only
    split <;> rfl
  · obtain ⟨st', hs, hframes, hdup⟩ := (hscan i hi).item (hitems i hi) (inArray_finish hst).1 hrest
    obtain ⟨hat, htail⟩ := (inArray_finish hst).2 hframes
    exact ⟨st', hs, hat, htail, fun h => ⟨(hdup h).1, fun l hl => forall_mem_cons.2 ⟨(hdup h).2, hl⟩⟩⟩

/-! ## Objects -/

/-- The members repeat no key among them and none of those already there. -/
structure NewKeys (keys : List Text) (members : List Member) : Prop where
  nodup : (members.map Member.key).Nodup
  fresh : ∀ m ∈ members, m.key ∉ keys
  strict : ∀ m ∈ members, Strict m.value.doc

variable {members : List Member}

theorem NewKeys.cons {keys : List Text} {m : Member} (h : NewKeys (m.key :: keys) members)
    (hkey : m.key ∉ keys) (hm : Strict m.value.doc) : NewKeys keys (m :: members) where
  nodup := by
    rw [map_cons, nodup_cons]
    refine ⟨fun hmem => ?_, h.nodup⟩
    obtain ⟨m', hm', heq⟩ := mem_map.1 hmem
    exact h.fresh m' hm' (heq ▸ mem_cons_self)
  fresh := forall_mem_cons.2 ⟨hkey, fun m' hm' hmem => h.fresh m' hm' (mem_cons_of_mem m.key hmem)⟩
  strict := forall_mem_cons.2 ⟨hm, h.strict⟩

theorem newKeys_nil (keys : List Text) : NewKeys keys [] :=
  ⟨nodup_nil, nofun, nofun⟩

/-- The keys of the innermost object. -/
def keysOf : List Frame → List Text
  | .object keys _ _ _ :: _ => keys
  | _ => []

/-- A member: its key is new, or the repetition is noted. -/
theorem scans_member {m : Member} (hkeyed : m.Keyed) (hscan : Scanned lib root m.value.text m.value.doc) :
    Element lib root Member.bytes (atKey · = true) (fun fs => NewKeys (keysOf fs)) m := by
  intro st rest hst hrest
  obtain ⟨keys, schema, pending, fs, hst⟩ : ∃ keys schema pending fs, st.frames = .object keys .key schema pending :: fs := by
    unfold atKey at hst
    split at hst
    · exact ⟨_, _, _, _, by assumption⟩
    · cases hst
  obtain ⟨st₁, hs₁, hsame₁⟩ := scans_space lib root hkeyed.before st
    (quoted m.keyText ++ (m.after ++ (58 :: (m.value.bytes ++ rest))))
  have hst₁ : st₁.frames = .object keys .key schema pending :: fs := hsame₁.frames.trans hst
  have hs₂ : Scans lib root st₁ (quoted m.keyText ++ (m.after ++ (58 :: (m.value.bytes ++ rest)))) (st₁.endKey m.key)
      (m.after ++ (58 :: (m.value.bytes ++ rest))) := scans_quoted hkeyed.key _ (by rw [hst₁]; rfl)
  have hend : (st₁.endKey m.key).frames = .object (m.key :: keys) .colon schema (pendingOf schema m.key) :: fs ∧
      (st₁.endKey m.key).duplicateKeys = (st₁.duplicateKeys || keys.contains m.key) := by
    unfold ScanState.endKey
    rw [hst₁]
    exact ⟨rfl, rfl⟩
  obtain ⟨st₃, hs₃, hsame₃⟩ := scans_space lib root hkeyed.after (st₁.endKey m.key)
    (58 :: (m.value.bytes ++ rest))
  have hcolon : st₃.colon.frames = .object (m.key :: keys) .value schema (pendingOf schema m.key) :: fs ∧
      st₃.colon.duplicateKeys = st₃.duplicateKeys := by
    unfold ScanState.colon
    rw [hsame₃.frames, hend.1]
    exact ⟨rfl, rfl⟩
  obtain ⟨st₄, hs₄, hframes₄, hdup₄⟩ := hscan.item hkeyed.value (by rw [hcolon.1]; rfl) hrest
  have hst₄ : st₄.frames = .object (m.key :: keys) .cont schema (pendingOf schema m.key) :: fs := by
    rw [hframes₄, hcolon.1]
    rfl
  have hcomma : st₄.comma.frames = .object (m.key :: keys) .key schema (pendingOf schema m.key) :: fs := by
    unfold ScanState.comma
    rw [hst₄]
  refine ⟨st₄, ?_, by rw [hcomma]; rfl, by rw [hst₄, hst]; rfl, fun h => ?_⟩
  · unfold Member.bytes
    simp only [append_assoc, singleton_append]
    exact hs₁.trans (hs₂.trans (hs₃.trans ((Scans.byte rfl).trans hs₄)))
  · obtain ⟨h₄, hstrict⟩ := hdup₄ h
    rw [hcolon.2, hsame₃.duplicateKeys, hend.2, hsame₁.duplicateKeys, Bool.or_eq_false_iff] at h₄
    rw [hcomma, hst]
    exact ⟨h₄.1, fun l hnew => NewKeys.cons hnew (by simpa [keysOf] using h₄.2) hstrict⟩

theorem scanned_object {blank : Bytes} (hblank : IsSpace blank) (hkeyed : ∀ m ∈ members, m.Keyed)
    (hscan : ∀ m ∈ members, Scanned lib root m.value.text m.value.doc) :
    Scanned lib root (objectText blank members) (.obj (members.map fun m => (m.key, m.value.doc))) := by
  refine scanned_brackets (fun _ _ => rfl) (fun _ _ => rfl) (by decide) (fun _ => ⟨rfl, rfl, rfl⟩) (fun _ => newKeys_nil _)
    hblank (fun m hm => scans_member (hkeyed m hm) (hscan m hm)) fun st h => .obj ?_ (forall_mem_map.2 h.strict)
  rw [map_map]
  exact h.nodup

/-! ## Texts -/

variable (lib root) in
/-- **The scan passes over every JSON value, and without a repeated key noted the value is strict.** -/
theorem scans_denotes {d : Doc} (h : Denotes text d) : Scanned lib root text d := by
  induction h with
  | null => exact scanned_literal (by decide) (by decide +kernel) .null
  | true | false => exact scanned_literal (by decide) (by decide +kernel) (.bool _)
  | num h => exact scanned_number h
  | str h => exact scanned_string h
  | arr hblank hitems _ ih => exact scanned_array hblank hitems ih
  | obj hblank hkeyed _ ih => exact scanned_object hblank hkeyed ih

/-- **A whole text in which the scan notes no repeated key repeats none.** -/
theorem strict_of_scanRaw {d : Doc} (h : IsText s d) (hdup : (scanRaw lib s root).duplicateKeys = false) :
    Strict d := by
  obtain ⟨before, text, after, hbefore, htext, hafter, rfl⟩ := h
  have hitem : Scanned lib root (Item.mk before text after d).text (Item.mk before text after d).doc :=
    scans_denotes lib root htext
  obtain ⟨st, hs, -, hstrict⟩ := @Scanned.item lib root _ hitem ⟨hbefore, hafter⟩ {} [] rfl (nofun)
  rw [append_nil] at hs
  refine (hstrict ?_).2
  rw [← hs.done]
  exact hdup

end Hipfire.Schema

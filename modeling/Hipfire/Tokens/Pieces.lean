import Hipfire.Tokens.Specials
/-!
# Pieces — greedy SentencePiece encoding followed by decoding

Encoding cuts a text into vocabulary entries, longest first; decoding reads each entry on its own, with `<0xHH>` as a byte.
So a text comes back exactly when every entry it can be cut into decodes to itself, and an entry stored at its own id does so
exactly when it spells no escape.
-/
namespace Hipfire.Tokens

open Tokenizer List

variable {env : TokenizerEnv} {t : Tokenizer}

/-! ## Escapes -/

/-- `<0xH…H>` at the front. -/
def EscapeFront (s : List Char) : Prop :=
  ∃ x hex after, s = '<' :: '0' :: x :: (hex ++ '>' :: after) ∧ (x = 'x' ∨ x = 'X') ∧ hex ≠ [] ∧
    ∀ c ∈ hex, Tokenizer.isHexDigit c = true

/-- `<0xH…H>` somewhere in the text. -/
def HasEscape (s : List Char) : Prop := ∃ rest, rest <:+ s ∧ EscapeFront rest

variable {s text rest : List Char} {id : Nat} {c : Char}

theorem hasEscape_cons : HasEscape (c :: s) ↔ EscapeFront (c :: s) ∨ HasEscape s := by
  constructor
  · rintro ⟨rest, hsuffix, hfront⟩
    rcases suffix_cons_iff.1 hsuffix with rfl | h
    · exact .inl hfront
    · exact .inr ⟨rest, h, hfront⟩
  · rintro (h | ⟨rest, hsuffix, hfront⟩)
    · exact ⟨_, suffix_rfl, h⟩
    · exact ⟨rest, hsuffix.trans (suffix_cons _ _), hfront⟩

theorem not_hasEscape_nil : ¬HasEscape [] := by
  rintro ⟨rest, hsuffix, x, hex, after, hrest, -⟩
  rw [suffix_nil.1 hsuffix] at hrest
  cases hrest

theorem hasEscape_skip {b : List Char} : ∀ {a : List Char}, (∀ c ∈ a, c ≠ '<') → (HasEscape (a ++ b) ↔ HasEscape b)
  | [], _ => Iff.rfl
  | c :: a, h => by
    have hfront : ¬EscapeFront (c :: (a ++ b)) := by
      rintro ⟨x, hex, after, hs, -⟩
      exact h c mem_cons_self (cons.inj hs).1
    rw [cons_append, hasEscape_cons, hasEscape_skip (forall_mem_cons.1 h).2]
    exact or_iff_right hfront

theorem isHexDigit_lt (h : isHexDigit c = true) : c ≠ '<' := by
  rintro rfl
  exact absurd h (by decide)

/-- Behind `<0x` the escape is read to its end. -/
theorem escapeFront_iff {x : Char} (hx : x = 'x' ∨ x = 'X') : EscapeFront ('<' :: '0' :: x :: s) ↔
    (s.dropWhile isHexDigit).head? = some '>' ∧ s.takeWhile isHexDigit ≠ [] := by
  constructor
  · rintro ⟨x', hex, after, hs, -, hne, hhex⟩
    simp only [cons.injEq, true_and] at hs
    rw [hs.2, takeWhile_append_of_pos hhex, dropWhile_append_of_pos hhex,
      dropWhile_cons_of_neg (by decide), takeWhile_cons_of_neg (by decide), append_nil]
    exact ⟨rfl, hne⟩
  · rintro ⟨hafter, hne⟩
    refine ⟨x, s.takeWhile isHexDigit, (s.dropWhile isHexDigit).tail, ?_, hx, hne, fun c hc =>
      mem_takeWhile_imp hc⟩
    have htail : '>' :: (s.dropWhile isHexDigit).tail = s.dropWhile isHexDigit := by
      cases hd : s.dropWhile isHexDigit with
      | nil =>
        rw [hd] at hafter
        cases hafter
      | cons c cs =>
        rw [hd, head?_cons, Option.some.injEq] at hafter
        rw [hafter]
        rfl
    rw [htail, takeWhile_append_dropWhile]

theorem escapeFront_second (h : EscapeFront ('<' :: c :: s)) : c = '0' ∧ s ≠ [] := by
  obtain ⟨x, hex, after, hs, -⟩ := h
  simp only [cons.injEq, true_and] at hs
  exact ⟨hs.1, by rw [hs.2]; exact cons_ne_nil _ _⟩

/-- What reading a text with its escapes gives: the text itself without escapes, and something shorter with one. -/
structure ReadsAs (s : List Char) (bytes : List UInt8) : Prop where
  plain : ¬HasEscape s → bytes = utf8 s
  le : bytes.length ≤ (utf8 s).length
  escaped : HasEscape s → bytes.length < (utf8 s).length

variable {a : List Char}

theorem ReadsAs.append {bytes : List UInt8} (h : ReadsAs s bytes)
    (hsame : HasEscape (a ++ s) ↔ HasEscape s) : ReadsAs (a ++ s) (utf8 a ++ bytes) where
  plain hno := by rw [h.plain fun hs => hno (hsame.2 hs), utf8_append]
  le := by
    have := h.le
    rw [utf8_append, length_append, length_append]
    omega
  escaped hs := by
    have := h.escaped (hsame.1 hs)
    rw [utf8_append, length_append, length_append]
    omega

/-- An escape at the front is read as something shorter. -/
theorem ReadsAs.escape {head bytes : List UInt8} (h : ReadsAs s bytes)
    (hfront : EscapeFront (a ++ s)) (hlt : head.length < (utf8 a).length) : ReadsAs (a ++ s) (head ++ bytes) := by
  have hs : HasEscape (a ++ s) := ⟨_, suffix_rfl, hfront⟩
  have hle := h.le
  have hlen : (head ++ bytes).length < (utf8 (a ++ s)).length := by
    rw [utf8_append, length_append, length_append]
    omega
  exact ⟨fun hno => absurd hs hno, Nat.le_of_lt hlen, fun _ => hlen⟩

theorem hexEscapeLoop_readsAs : ∀ {fuel : Nat} {s : List Char}, s.length ≤ fuel → ReadsAs s (hexEscapeLoop fuel s)
  | fuel, [], _ => by
    have hnil : hexEscapeLoop fuel [] = [] := by cases fuel <;> rw [hexEscapeLoop]
    rw [hnil]
    exact ⟨fun _ => rfl, le_rfl, fun h => absurd h not_hasEscape_nil⟩
  | fuel + 1, c :: rest, hlen => by
    rw [length_cons] at hlen
    have hrest : ReadsAs rest (hexEscapeLoop fuel rest) := hexEscapeLoop_readsAs (by omega)
    unfold hexEscapeLoop
    split
    · rename_i hc
      have h := hrest.append (hasEscape_skip (a := [c]) (by simpa using hc))
      rwa [utf8, flatMap_singleton] at h
    · rename_i hc
      rw [not_not] at hc
      subst hc
      split
      · rename_i x rest'
        rw [length_cons, length_cons] at hlen
        split
        · rename_i hx
          have hcut := takeWhile_append_dropWhile (p := isHexDigit) (l := rest')
          have hfront := escapeFront_iff (s := rest') hx
          have hhex : ∀ d ∈ rest'.takeWhile isHexDigit, d ≠ '<' := fun d hd =>
            isHexDigit_lt (mem_takeWhile_imp hd)
          dsimp only
          generalize rest'.takeWhile isHexDigit = hex at hcut hfront hhex ⊢
          generalize rest'.dropWhile isHexDigit = after at hcut hfront ⊢
          subst hcut
          rw [length_append] at hlen
          split
          · rename_i hends
            obtain ⟨tail, rfl⟩ : ∃ tail, after = '>' :: tail := by
              cases after with
              | nil => cases hends.1
              | cons d tail => exact ⟨tail, by rw [Option.some.inj hends.1]⟩
            have hwhole : '<' :: '0' :: x :: (hex ++ '>' :: tail) = ('<' :: '0' :: x :: (hex ++ ['>'])) ++ tail := by simp
            have hread : ReadsAs tail (hexEscapeLoop fuel tail) :=
              hexEscapeLoop_readsAs (by rw [length_cons] at hlen; omega)
            have hescape := hfront.2 hends
            rw [hwhole] at hescape ⊢
            split
            · rename_i byte hbyte
              have hlt : [byte].length < (utf8 ('<' :: '0' :: x :: (hex ++ ['>']))).length := by
                have h1 : (String.utf8EncodeChar '<').length = 1 := rfl
                have h2 : (String.utf8EncodeChar '0').length = 1 := rfl
                rw [utf8, flatMap_cons, flatMap_cons, length_append, length_append, h1, h2,
                  length_singleton]
                omega
              exact hread.escape hescape hlt
            · have hsplit : '<' :: '0' :: x :: (hex ++ ['>']) = ('<' :: '0' :: x :: hex) ++ ['>'] := rfl
              refine hread.escape hescape ?_
              rw [hsplit, utf8_append, length_append]
              exact Nat.lt_add_of_pos_right (by decide)
          · rename_i hends
            have hskip : HasEscape (('<' :: '0' :: x :: hex) ++ after) ↔ HasEscape after := by
              rw [cons_append, hasEscape_cons]
              refine (or_iff_right fun h => hends (hfront.1 h)).trans (hasEscape_skip fun d hd => ?_)
              rcases mem_cons.1 hd with rfl | hd
              · decide
              · rcases mem_cons.1 hd with rfl | hd
                · rcases hx with rfl | rfl <;> decide
                · exact hhex d hd
            exact ReadsAs.append (a := '<' :: '0' :: x :: hex) (hexEscapeLoop_readsAs (by omega)) hskip
        · rename_i hx
          have hskip : HasEscape (['<', '0'] ++ x :: rest') ↔ HasEscape (x :: rest') := by
            rw [cons_append, hasEscape_cons]
            refine (or_iff_right ?_).trans (hasEscape_skip (a := ['0']) (by simp))
            rintro ⟨x', hex, after, hs, hx', -⟩
            simp only [cons_append, nil_append, cons.injEq, true_and] at hs
            exact hx (hs.1 ▸ hx')
          exact ReadsAs.append (a := ['<', '0']) (hexEscapeLoop_readsAs (by rw [length_cons]; omega)) hskip
      · exact ⟨fun _ => rfl, le_rfl, fun h => by
          rcases hasEscape_cons.1 h with h | h
          · exact absurd rfl (escapeFront_second h).2
          · exact absurd ((hasEscape_skip (a := ['0']) (b := []) (by simp)).1 h) not_hasEscape_nil⟩
      · rename_i hno0 hnot
        have hskip : HasEscape (['<'] ++ rest) ↔ HasEscape rest := by
          rw [cons_append, hasEscape_cons]
          refine or_iff_right ?_
          intro h
          cases rest with
          | nil =>
            obtain ⟨x, hex, after, hs, -⟩ := h
            cases hs
          | cons d rest =>
            obtain ⟨rfl, hne⟩ := escapeFront_second h
            cases rest with
            | nil => exact hne rfl
            | cons x rest => exact hno0 x rest rfl
        exact hrest.append hskip

/-- **A text without escapes is read as itself, and only such a text.** -/
theorem decodeHexEscapesBytes_eq_iff (s : List Char) : decodeHexEscapesBytes s = utf8 s ↔ ¬HasEscape s := by
  have h := hexEscapeLoop_readsAs (Nat.le_refl s.length)
  constructor
  · intro heq hescape
    have := h.escaped hescape
    rw [decodeHexEscapesBytes] at heq
    rw [heq] at this
    exact Nat.lt_irrefl _ this
  · exact h.plain

/-! ## Entries -/

/-- The text an entry is matched against: spaces are `▁`. -/
def spaced (text : List Char) : List Char := text.map fun c => if c = ' ' then '▁' else c

/-- A text without `▁`, without special tokens, every character of which is an entry. -/
structure Plain (t : Tokenizer) (text : List Char) : Prop where
  noMark : ∀ c ∈ text, c ≠ '▁'
  noSpecial : ∀ st ∈ t.specialTokens, ¬st.1 <:+: text
  known : ∀ c ∈ text, (t.tokenToId.lookup (spaced [c])).isSome = true

theorem Plain.within {b : List Char} (h : Plain t b) (hab : a <:+: b) : Plain t a where
  noMark c hc := h.noMark c (hab.subset hc)
  noSpecial st hst hin := h.noSpecial st hst (hin.trans hab)
  known c hc := h.known c (hab.subset hc)

theorem unspaced (h : ∀ c ∈ text, c ≠ '▁') : (spaced text).map (fun c => if c = '▁' then ' ' else c) = text := by
  rw [spaced, map_map]
  refine (map_congr_left fun c hc => ?_).trans (map_id text)
  rw [Function.comp_apply, id_eq]
  by_cases hspace : c = ' '
  · rw [if_pos hspace, if_pos rfl, hspace]
  · rw [if_neg hspace, if_neg (h c hc)]

/-- `max_tok_chars`. -/
def Tokenizer.maxTokChars (t : Tokenizer) : Nat := ((t.tokenToId.keys.map length).max?).getD 1

theorem le_maxKey {key : List Char} (h : t.tokenToId.lookup key = some id) : key.length ≤ t.maxTokChars := by
  have hmem : key ∈ t.tokenToId.keys := AList.mem_keys.1 (AList.lookup_isSome.1 (by rw [h]; rfl))
  have hlen : key.length ∈ t.tokenToId.keys.map length := mem_map_of_mem hmem
  unfold maxTokChars
  cases hmax : (t.tokenToId.keys.map length).max? with
  | none =>
    rw [max?_eq_none_iff] at hmax
    rw [hmax] at hlen
    cases hlen
  | some m => exact (max?_eq_some_iff.1 hmax).2 _ hlen

theorem longestEntry_some {maxChars len : Nat} (h : t.longestEntry maxChars rest = some (len, id)) :
    0 < len ∧ len ≤ rest.length ∧ t.tokenToId.lookup (rest.take len) = some id := by
  obtain ⟨k, hk, hfound⟩ := exists_of_findSome?_eq_some h
  rw [mem_reverse, mem_range] at hk
  obtain ⟨id', hlookup, hpair⟩ := Option.map_eq_some_iff.1 hfound
  cases hpair
  exact ⟨Nat.succ_pos _, by omega, hlookup⟩

theorem longestEntry_isSome {maxChars k : Nat} (hk : k < min maxChars rest.length)
    (h : t.tokenToId.lookup (rest.take (k + 1)) = some id) : (t.longestEntry maxChars rest).isSome = true := by
  rw [Option.isSome_iff_ne_none]
  intro hnone
  have := findSome?_eq_none_iff.1 hnone k (mem_reverse.2 (mem_range.2 hk))
  rw [h] at this
  cases this

theorem longestEntry_whole {maxChars : Nat} (hne : rest ≠ []) (hmax : rest.length ≤ maxChars)
    (h : t.tokenToId.lookup rest = some id) : t.longestEntry maxChars rest = some (rest.length, id) := by
  obtain ⟨n, hn⟩ := Nat.exists_eq_succ_of_ne_zero (fun h0 => hne (length_eq_zero_iff.1 h0))
  unfold longestEntry
  rw [Nat.min_eq_right hmax, hn, range_succ, reverse_append, reverse_singleton, singleton_append,
    findSome?_cons, take_of_length_le (by omega), h]
  rfl

/-- Every entry made of plain characters decodes to the text it is matched against. -/
def EntriesFaithful (t : Tokenizer) : Prop :=
  ∀ text id, text ≠ [] → Plain t text → t.tokenToId.lookup (spaced text) = some id → t.tokenBytes id = utf8 text

/-- **Cutting into entries keeps the bytes**, if every entry does. -/
theorem sentencepieceLoop_bytes (h : EntriesFaithful t) : ∀ {fuel : Nat} {text : List Char}, text.length ≤ fuel →
    Plain t text → t.decodeBytes (t.sentencepieceLoop t.maxTokChars fuel (spaced text)) = utf8 text
  | fuel, [], _, _ => by
    cases fuel <;> rfl
  | fuel + 1, c :: rest, hlen, hp => by
    obtain ⟨one, hone⟩ := Option.isSome_iff_exists.1 (hp.known c mem_cons_self)
    have hmax := le_maxKey hone
    have hcons : spaced (c :: rest) = (if c = ' ' then '▁' else c) :: spaced rest := rfl
    have hsome : (t.longestEntry t.maxTokChars (spaced (c :: rest))).isSome = true := by
      refine longestEntry_isSome (k := 0) ?_ hone
      exact Nat.lt_min.2 ⟨hmax, Nat.succ_pos _⟩
    obtain ⟨⟨len, id⟩, hlongest⟩ := Option.isSome_iff_exists.1 hsome
    obtain ⟨hpos, hle, hlookup⟩ := longestEntry_some hlongest
    rw [hcons, sentencepieceLoop, ← hcons, hlongest]
    dsimp only
    have hlength : (spaced (c :: rest)).length = (c :: rest).length := length_map ..
    have htake : (spaced (c :: rest)).take len = spaced ((c :: rest).take len) := map_take.symm
    have hdrop : (spaced (c :: rest)).drop len = spaced ((c :: rest).drop len) := map_drop.symm
    rw [hlength] at hle
    have hbytes := h _ id (length_pos_iff.1 (by rw [length_take, Nat.min_eq_left hle]; exact hpos))
      (hp.within ( List.take_prefix len _).isInfix) (htake ▸ hlookup)
    have hrest : t.decodeBytes (t.sentencepieceLoop t.maxTokChars fuel (spaced ((c :: rest).drop len))) =
        utf8 ((c :: rest).drop len) :=
      sentencepieceLoop_bytes h (by rw [length_drop]; omega) (hp.within (drop_suffix len _).isInfix)
    rw [hdrop, ← singleton_append, decodeBytes_append, hrest, decodeBytes_singleton, hbytes, ← utf8_append,
      take_append_drop]

/-! ## Texts -/

/-- The greedy path: no merges, no dummy prefix, no beginning-of-text id. -/
structure Greedy (t : Tokenizer) : Prop where
  notGpt2 : t.isGpt2Bpe = false
  notMerged : t.spBpe = false
  noPrefix : t.spDummyPrefix = false
  noBos : t.addBos = false

theorem nextSpecial_plain (h : ∀ st ∈ t.specialTokens, ¬st.1 <:+: text) : t.nextSpecial text = text.length := by
  have hfold : ∀ sts : List (List Char × Nat), (∀ st ∈ sts, ¬st.1 <:+: text) →
      sts.foldl (earlierSpecial text) text.length = text.length := by
    intro sts
    induction sts with
    | nil => exact fun _ => rfl
    | cons st sts ih =>
      intro hno
      have hcut : cutAt st.1 text = none := by
        rw [← Option.not_isSome_iff_eq_none]
        exact fun hsome => hno st mem_cons_self (infix_of_cutAt_isSome hsome)
      rw [foldl_cons, earlierSpecial, hcut]
      exact ih (forall_mem_cons.1 hno).2
  exact hfold _ h

/-- **A text without special tokens is one segment.** -/
theorem encode_plain (hg : Greedy t) (hp : Plain t text) : t.encode env text =
      some (t.sentencepieceLoop t.maxTokChars text.length (spaced text)) := by
  have hraw : ∀ text, t.encodeRaw env text =
      some (t.sentencepieceLoop t.maxTokChars text.length (spaced text)) := by
    intro text
    have hsp : t.spText text = spaced text := by
      rw [spText, hg.noPrefix]
      rfl
    have hlength : (spaced text).length = text.length := length_map ..
    rw [encodeRaw, if_neg (by rw [hg.notMerged]; exact Bool.false_ne_true), if_pos (by rw [hg.notGpt2]; rfl),
      encodeSentencepiece, hsp, hlength]
    rfl
  have hbos : t.bosPrefix text = [] := by
    rw [bosPrefix, if_neg (by rw [hg.noBos]; exact fun hc => Bool.false_ne_true hc.1)]
  unfold Tokenizer.encode
  rw [hbos]
  split
  · rw [hraw]
    rfl
  cases text with
  | nil => rfl
  | cons c rest =>
    have hfind : (t.specialTokens.find? fun st => decide (st.1 <+: c :: rest)) = none :=
      find?_eq_none.2 fun st hst hpre => hp.noSpecial st hst (of_decide_eq_true hpre).isInfix
    have hturn : t.turnIds env (c :: rest) = t.encodeRaw env (c :: rest) := by
      rw [turnIds, hfind]
      rw [nextSpecial_plain hp.noSpecial, take_length, if_neg (cons_ne_nil _ _)]
    have hleft : t.remainingAfter (c :: rest) = [] := by
      rw [remainingAfter, hfind]
      rw [nextSpecial_plain hp.noSpecial, drop_length]
    have hdone : t.encodeLoop env rest.length [] = some [] := by cases rest.length <;> rw [encodeLoop]
    rw [length_cons, encodeLoop_cons, hturn, hleft, hraw, Option.bind_some, hdone, Option.map_some, append_nil]
    rfl

/-- An entry stored at its own id decodes to itself exactly when it spells no escape. -/
theorem tokenBytes_stored (hg : Greedy t) (hmark : ∀ c ∈ text, c ≠ '▁') (hstored : t.vocab[id]? = some (spaced text)) :
    t.tokenBytes id = utf8 text ↔ ¬HasEscape text := by
  rw [tokenBytes, hstored]
  dsimp only
  rw [if_neg (by rw [hg.notGpt2]; exact Bool.false_ne_true), unspaced hmark]
  exact decodeHexEscapesBytes_eq_iff text

/-- **The round trip of a greedy SentencePiece tokenizer**: every plain text comes back exactly when every entry made of
plain characters decodes to the text it is matched against; and an entry that its id leads back to does so exactly when it
does not spell a byte escape. -/
theorem sentencepiece_round_trip_iff (hg : Greedy t) :
    ((∀ text, Plain t text → ∃ ids, t.encode env text = some ids ∧ t.decodeBytes ids = utf8 text) ↔ EntriesFaithful t) ∧
      ∀ text id, Plain t text → t.vocab[id]? = some (spaced text) → (t.tokenBytes id = utf8 text ↔ ¬HasEscape text) := by
  refine ⟨⟨fun h text id hne hp hlookup => ?_, fun h text hp => ⟨_, encode_plain hg hp, ?_⟩⟩, fun text id hp hstored =>
    tokenBytes_stored hg hp.noMark hstored⟩
  · obtain ⟨ids, hids, hdecode⟩ := h text hp
    have hspaced : spaced text ≠ [] := fun hnil => hne (map_eq_nil_iff.1 hnil)
    have hlength : (spaced text).length = text.length := length_map ..
    have hwhole := longestEntry_whole hspaced (le_maxKey hlookup) hlookup
    rw [encode_plain hg hp, Option.some.injEq] at hids
    rw [← hids, ← hlength] at hdecode
    generalize spaced text = entry at hspaced hwhole hdecode
    cases entry with
    | nil => exact absurd rfl hspaced
    | cons c rest =>
      rw [length_cons, Tokenizer.sentencepieceLoop, hwhole] at hdecode
      dsimp only at hdecode
      rw [drop_length] at hdecode
      cases hn : rest.length <;> rw [hn, Tokenizer.sentencepieceLoop, decodeBytes_singleton] at hdecode <;> exact hdecode
  · exact sentencepieceLoop_bytes h le_rfl hp

/-- A `tokenizer.json` with these entries, in order, and nothing else. -/
def spVocabulary (entries : List (List Char)) : HfTokenizer where
  model := some
    { vocab := some (entries.zipIdx.map fun e => (e.1, some e.2)), merges := [], ignoreMerges := false, hasUnkToken := false,
      byteFallback := true }
  addedTokens := []
  pretok := none
  normalizerIsNfc := false
  spDummyPrefix := false

/-- With the one entry `a`, every text of its letter comes back. -/
theorem sentencepiece_round_trip_iff_letter : ∃ t, fromHfJson (spVocabulary [['a']]) = .ok t ∧ Greedy t ∧
    ∀ env text, Plain t text → ∃ ids, t.encode env text = some ids ∧ t.decodeBytes ids = utf8 text := by
  refine ⟨_, rfl, ⟨rfl, rfl, rfl, rfl⟩, fun env => ((sentencepiece_round_trip_iff ⟨rfl, rfl, rfl, rfl⟩).1).2 ?_⟩
  intro text id _ hp hlookup
  have hkey : spaced text = ['a'] ∧ id = 0 := by
    have h := Maps.lookup_insert (∅ : TokenIds) ['a'] (spaced text) 0
    split at h
    · rename_i hspaced
      exact ⟨hspaced, Option.some.inj (hlookup.symm.trans h)⟩
    · exact nomatch hlookup.symm.trans h
  have htext := unspaced hp.noMark
  rw [hkey.1] at htext
  rw [hkey.2, ← htext]
  rfl

/-- **Text that spells a byte piece becomes the byte**: with `<0x0A>` in the vocabulary the six characters are one entry,
which decodes to a newline; and an entry whose number is no byte loses its closing bracket. -/
theorem spelled_escape_becomes_byte : ∃ t,
    fromHfJson (spVocabulary [['<'], ['0'], ['x'], ['A'], ['>'], ['<', '0', 'x', '0', 'A', '>']]) = .ok t ∧ Greedy t ∧
      Plain t ['<', '0', 'x', '0', 'A', '>'] ∧
      (∀ env, t.encode env ['<', '0', 'x', '0', 'A', '>'] = some [5]) ∧ t.decodeBytes [5] = [0x0A] ∧
      Tokenizer.decodeHexEscapesBytes ['<', '0', 'x', '1', '0', '0', '>'] = utf8 ['<', '0', 'x', '1', '0', '0'] := by
  refine ⟨_, rfl, ⟨rfl, rfl, rfl, rfl⟩, ⟨?_, nofun, ?_⟩, fun env => rfl, rfl, rfl⟩
  · simp
  · exact all_eq_true.1 rfl

end Hipfire.Tokens

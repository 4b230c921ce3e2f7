import Hipfire.Base.Maps
import Hipfire.Tokens.Tokenizer
import Hipfire.Tokens.Merging
/-!
# Lossless — byte-level encoding followed by decoding

Special tokens, regex pieces, byte symbols and merges each keep the bytes: a symbol's bytes are the decoded characters of
its vocabulary entry, and a merge's entry is the concatenation of its operands'.  What the tables must satisfy is
`ByteLevel`; that a special token's own id carries its text does not follow from it (`readded_token_is_lossy`).
-/
namespace Hipfire.Tokens

open Tokenizer List

/-- What the constructors build. -/
inductive Built (t : Tokenizer) : Prop
  | hfJson (src : HfTokenizer) (h : fromHfJson src = .ok t)
  | gguf (src : GgufTokenizer) (h : fromGguf src = .ok t)
  | ggufMetaJson (src : GgufTokenizer) (h : fromGgufMetaJson src = .ok t)

/-- A GPT-2 tokenizer whose 256 byte symbols have ids, whose ids lead back to their entries, that splits without dropping,
normalizes nothing, prepends nothing, and whose special tokens are non-empty ASCII. -/
structure ByteLevel (env : TokenizerEnv) (t : Tokenizer) : Prop where
  gpt2 : t.isGpt2Bpe = true
  bytes : ∀ b : UInt8, ∃ id, t.tokenToId.lookup [byteToGpt2Char b] = some id ∧ id ≠ byteAbsent
  entries : ∀ s id, t.tokenToId.lookup s = some id → t.vocab[id]? = some s
  isolated : ∀ s ∈ (t.pretokenizer env).stages, s.dropGaps = false
  notNfc : t.normalizerNfc = false
  notBos : t.addBos = false
  special : ∀ st ∈ t.specialTokens, st.1 ≠ [] ∧ ∀ c ∈ st.1, c.toNat < 128

/-! ## What loading gives -/

/-- Every ranked pair is two entries whose concatenation is the entry of the result. -/
def Resolved (ids : TokenIds) (table : MergeTable) : Prop :=
  ∀ {a b r}, table.rank a b = some r →
    ∃ left right, ids.lookup left = some a ∧ ids.lookup right = some b ∧ ids.lookup (left ++ right) = some (table.merged r)

variable {vocab : List (List Char)} {ids : TokenIds} {table : MergeTable}

theorem Resolved.push (h : Resolved ids table) {left right : List Char}
    {a b c : Nat} (hl : ids.lookup left = some a) (hr : ids.lookup right = some b)
    (hc : ids.lookup (left ++ right) = some c) : Resolved ids (table.push a b c) := by
  intro x y r hrank
  rcases Option.or_eq_some_iff.1 hrank with hold | ⟨-, hnew⟩
  · obtain ⟨l', r', h1, h2, h3⟩ := h hold
    refine ⟨l', r', h1, h2, ?_⟩
    rw [h3, MergeTable.merged, MergeTable.merged, MergeTable.push,
      getD_append _ _ _ _ (table.inRange hold)]
  · split at hnew
    · rename_i heq
      cases hnew
      obtain ⟨rfl, rfl⟩ := heq
      refine ⟨left, right, hl, hr, ?_⟩
      rw [hc, MergeTable.merged, MergeTable.push, getD_append_right _ _ _ _ le_rfl, Nat.sub_self]
      rfl
    · cases hnew

theorem resolveLoop_resolved : ∀ {rules : List (List Char × List Char)} {table table' : MergeTable},
    Resolved ids table → resolveLoop ids rules table = .ok table' → Resolved ids table'
  | [], _, _, h, heq => by
    cases heq
    exact h
  | (l, r) :: rules, table, table', h, heq => by
    unfold resolveLoop at heq
    split at heq
    · cases heq
    rename_i a hl
    split at heq
    · cases heq
    rename_i b hr
    split at heq
    · cases heq
    · rename_i c hc
      exact resolveLoop_resolved (h.push hl hr hc) heq

theorem buildByteToId_ok {absentOk : Bool} {f : UInt8 → Nat} (h : buildByteToId ids absentOk = .ok f) :
    f = byteIdOf ids := by
  unfold buildByteToId at h
  split at h
  · cases h
  · cases h
    rfl

/-- What the encoder relies on. -/
structure Loaded (t : Tokenizer) : Prop where
  resolved : Resolved t.tokenToId t.table
  bytes : t.isGpt2Bpe = true → t.byteToId = some (byteIdOf t.tokenToId)
  plain : t.spBpe = false

theorem resolveMerges_ok {rules : List (List Char × List Char)}
    (h : resolveMerges rules ids = .ok table) : Resolved ids table :=
  resolveLoop_resolved (fun {a b r} hr => (by cases hr)) h

/-- The byte table of a constructor: built for GPT-2 vocabularies only. -/
theorem byteTable_ok {gpt2 absentOk : Bool} {byteToId : Option (UInt8 → Nat)}
    (h : (if gpt2 then (buildByteToId ids absentOk).map some else .ok none) = Except.ok byteToId) :
    gpt2 = true → byteToId = some (byteIdOf ids) := by
  rintro rfl
  cases hb : buildByteToId ids absentOk with
  | error e =>
    rw [hb] at h
    cases h
  | ok f =>
    rw [hb] at h
    cases h
    rw [buildByteToId_ok hb]

variable {t : Tokenizer}

theorem loadGguf_loaded {src : GgufTokenizer} (h : loadGguf src = .ok t) : Loaded t := by
  unfold loadGguf at h
  split at h
  · cases h
  dsimp only at h
  split at h
  · cases h
  rename_i hmerges
  split at h
  · cases h
  · rename_i hbytes
    cases h
    exact ⟨resolveMerges_ok hmerges, byteTable_ok hbytes, rfl⟩

theorem fromHfJson_loaded {src : HfTokenizer} (h : fromHfJson src = .ok t) : Loaded t := by
  unfold fromHfJson at h
  split at h
  · cases h
  split at h
  · cases h
  split at h
  · cases h
  dsimp only at h
  split at h
  · cases h
  rename_i hmerges
  split at h
  · cases h
  · rename_i hbytes
    cases h
    exact ⟨resolveMerges_ok hmerges, byteTable_ok hbytes, rfl⟩

theorem Built.loaded (h : Built t) : Loaded t := by
  cases h with
  | hfJson src h => exact fromHfJson_loaded h
  | gguf src h | ggufMetaJson src h => exact loadGguf_loaded h

/-! ## Bytes of symbols -/

variable {env : TokenizerEnv} {t : Tokenizer}

theorem decodeBytes_append (t : Tokenizer) (a b : List Nat) : t.decodeBytes (a ++ b) = t.decodeBytes a ++ t.decodeBytes b :=
  flatMap_append

theorem decodeBytes_singleton (t : Tokenizer) (id : Nat) : t.decodeBytes [id] = t.tokenBytes id := flatMap_singleton ..

theorem tokenBytes_of_vocab (h : t.isGpt2Bpe = true) {id : Nat} {s : List Char} (hs : t.vocab[id]? = some s) :
    t.tokenBytes id = s.flatMap decodeChar := by
  unfold tokenBytes
  rw [hs]
  exact if_pos h

theorem prefix_of_cutAt_nil {pat s after : List Char} (h : cutAt pat s = some ([], after)) : pat <+: s := by
  unfold cutAt at h
  split at h
  · split at h
    · rename_i hpat
      rw [hpat]
    · cases h
  · split at h
    · rename_i hpre
      exact hpre
    · rw [Option.map_eq_some_iff] at h
      obtain ⟨r, -, hr⟩ := h
      cases hr

theorem foldl_earlierSpecial_bounds {text : List Char} : ∀ (sts : List (List Char × Nat)) (next : Nat),
    (∀ st ∈ sts, ¬st.1 <+: text) → 0 < next → next ≤ text.length →
    0 < sts.foldl (earlierSpecial text) next ∧ sts.foldl (earlierSpecial text) next ≤ text.length
  | [], _, _, hpos, hle => ⟨hpos, hle⟩
  | st :: sts, next, hno, hpos, hle => by
    rw [foldl_cons]
    have hrest : ∀ st' ∈ sts, ¬st'.1 <+: text := (forall_mem_cons.1 hno).2
    unfold earlierSpecial
    split
    · rename_i before after hcut
      have hbefore : 0 < before.length := by
        cases before with
        | nil => exact absurd (prefix_of_cutAt_nil hcut) (hno st mem_cons_self)
        | cons => exact Nat.succ_pos _
      split
      · exact foldl_earlierSpecial_bounds sts _ hrest hbefore (by omega)
      · exact foldl_earlierSpecial_bounds sts _ hrest hpos hle
    · exact foldl_earlierSpecial_bounds sts _ hrest hpos hle

/-- Where no special token starts, the next one starts later. -/
theorem nextSpecial_bounds {c : Char} {rest : List Char} (hno : ∀ st ∈ t.specialTokens, ¬st.1 <+: c :: rest) :
    0 < t.nextSpecial (c :: rest) ∧ t.nextSpecial (c :: rest) ≤ (c :: rest).length :=
  foldl_earlierSpecial_bounds t.specialTokens _ hno (Nat.succ_pos _) le_rfl

theorem flatMap_decodeChar_ascii {s : List Char} (h : ∀ c ∈ s, c.toNat < 128) : s.flatMap decodeChar = utf8 s :=
  flatMap_congr fun c hc => decodeChar_ascii (h c hc)

section level

variable (hl : Loaded t) (h : ByteLevel env t)
include h

theorem decodeBytes_symbols (chunk : List UInt8) : t.decodeBytes (chunk.map (byteIdOf t.tokenToId)) = chunk := by
  induction chunk with
  | nil => rfl
  | cons b chunk ih =>
    obtain ⟨id, hid, -⟩ := h.bytes b
    have hbyte : t.tokenBytes (byteIdOf t.tokenToId b) = [b] := by
      rw [byteIdOf, hid, Option.getD_some, tokenBytes_of_vocab h.gpt2 (h.entries _ _ hid), flatMap_singleton,
        decodeChar_byteToGpt2Char]
    rw [map_cons, ← singleton_append, decodeBytes_append, ih, decodeBytes_singleton, hbyte]
    rfl

include hl

theorem tokenBytes_merged {a b r : Nat} (hr : t.table.rank a b = some r) :
    t.tokenBytes (t.table.merged r) = t.tokenBytes a ++ t.tokenBytes b := by
  obtain ⟨left, right, h1, h2, h3⟩ := hl.resolved hr
  rw [tokenBytes_of_vocab h.gpt2 (h.entries _ _ h1), tokenBytes_of_vocab h.gpt2 (h.entries _ _ h2),
    tokenBytes_of_vocab h.gpt2 (h.entries _ _ h3), flatMap_append]

theorem decodeBytes_naiveLoop : ∀ (fuel : Nat) (syms : List Nat),
    t.decodeBytes (naiveLoop t.table fuel syms) = t.decodeBytes syms
  | 0, _ => rfl
  | fuel + 1, syms => by
    unfold naiveLoop
    split
    · rfl
    rename_i r k hlow
    obtain ⟨⟨p, x, y, q, rfl, rfl, hr⟩, -⟩ := lowestPair_some hlow
    rw [decodeBytes_naiveLoop fuel]
    have hreplace : replacePair (t.table.merged r) p.length (p ++ x :: y :: q) = p ++ t.table.merged r :: q := by
      rw [replacePair, take_left, drop_append]
      simp
    rw [hreplace]
    simp only [decodeBytes, flatMap_append, flatMap_cons, tokenBytes_merged hl h hr, append_assoc]

theorem decodeBytes_naive (syms : List Nat) : t.decodeBytes (naive t.table syms) = t.decodeBytes syms :=
  decodeBytes_naiveLoop hl h _ _

/-! ## Chunks, segments, texts -/

/-- **One chunk**: by the whole-chunk entry or by merging, its bytes come back. -/
theorem encodeGpt2Chunk_spec {chunk : List UInt8} (hlen : chunk.length < 2147483648) (out : List Nat) :
    ∃ ids, t.encodeGpt2Chunk chunk out = some (out ++ ids) ∧ t.decodeBytes ids = chunk := by
  unfold encodeGpt2Chunk
  split
  · rename_i hnil
    exact ⟨[], by rw [append_nil], hnil.symm⟩
  split
  · rename_i id hid
    refine ⟨[id], rfl, ?_⟩
    have hlookup : t.tokenToId.lookup (chunk.map byteToGpt2Char) = some id := by
      unfold wholeChunk at hid
      split at hid
      · split at hid
        · exact hid
        · cases hid
      · cases hid
    rw [decodeBytes_singleton, tokenBytes_of_vocab h.gpt2 (h.entries _ _ hlookup), flatMap_map]
    simp only [decodeChar_byteToGpt2Char]
    exact flatMap_singleton' chunk
  · rw [hl.bytes h.gpt2, Option.bind_some]
    have hall : (chunk.map (byteIdOf t.tokenToId)).filter (· ≠ byteAbsent) = chunk.map (byteIdOf t.tokenToId) := by
      refine filter_eq_self.2 fun id hid => ?_
      obtain ⟨b, -, rfl⟩ := mem_map.1 hid
      obtain ⟨id, hlookup, hne⟩ := h.bytes b
      rw [byteIdOf, hlookup, Option.getD_some]
      exact decide_eq_true hne
    rw [hall]
    have hsyms := decodeBytes_symbols h chunk
    have hcount : (chunk.map (byteIdOf t.tokenToId)).length < 2147483648 := by rwa [length_map]
    generalize chunk.map (byteIdOf t.tokenToId) = syms at hsyms hcount ⊢
    split
    · exact ⟨[], by rw [append_nil], hsyms⟩
    · exact ⟨_, rfl, hsyms⟩
    · exact ⟨_, bpeMergeSymbols_eq t.table syms out hcount, by rw [decodeBytes_naive hl h, hsyms]⟩

theorem encodePieces_spec : ∀ (pieces : List (List Char)) (out : List Nat), (utf8 pieces.flatten).length < 2147483648 →
    ∃ ids, pieces.foldlM (fun out piece => t.encodeGpt2Chunk (utf8 piece) out) out = some (out ++ ids) ∧
      t.decodeBytes ids = utf8 pieces.flatten
  | [], out, _ => ⟨[], by rw [append_nil]; rfl, rfl⟩
  | piece :: pieces, out, hlen => by
    rw [flatten_cons, utf8_append, length_append] at hlen
    obtain ⟨ids, hchunk, hids⟩ := encodeGpt2Chunk_spec hl h (show (utf8 piece).length < 2147483648 by omega) out
    obtain ⟨rest, hrest, hdecode⟩ := encodePieces_spec pieces (out ++ ids) (by omega)
    refine ⟨ids ++ rest, ?_, ?_⟩
    · rw [foldlM_cons, hchunk, ← append_assoc]
      exact hrest
    · rw [decodeBytes_append, hids, hdecode, flatten_cons, utf8_append]

theorem encodeRaw_spec {text : List Char} (hlen : (utf8 text).length < 2147483648) :
    ∃ ids, t.encodeRaw env text = some ids ∧ t.decodeBytes ids = utf8 text := by
  have hflat := Gpt2Pretokenizer.flatten_pieces h.isolated text
  obtain ⟨ids, hids, hdecode⟩ := encodePieces_spec hl h ((t.pretokenizer env).pieces text) [] (by rwa [hflat])
  refine ⟨ids, ?_, by rw [hdecode, hflat]⟩
  unfold encodeRaw
  rw [if_neg (by rw [hl.plain]; exact Bool.false_ne_true), if_neg (by rw [h.gpt2]; exact Bool.false_ne_true),
    if_neg (by rw [h.notNfc]; exact Bool.false_ne_true)]
  exact hids

/-- **The loop over special tokens**: every turn takes a token or a segment off the text and gives its bytes. -/
theorem encodeLoop_spec (hids : ∀ st ∈ t.specialTokens, t.vocab[st.2]? = some st.1) :
    ∀ (fuel : Nat) (text : List Char), text.length ≤ fuel → (utf8 text).length < 2147483648 →
      ∃ ids, t.encodeLoop env fuel text = some ids ∧ t.decodeBytes ids = utf8 text
  | _, [], _, _ => ⟨[], by unfold encodeLoop; rfl, rfl⟩
  | fuel + 1, c :: rest, hfuel, hlen => by
    unfold encodeLoop
    split
    · rename_i st id hfind
      have hmem := mem_of_find?_eq_some hfind
      have hpre : st <+: c :: rest := by simpa using find?_some hfind
      obtain ⟨hne, hascii⟩ := h.special _ hmem
      have hcut : c :: rest = st ++ (c :: rest).drop st.length := (prefix_iff_eq_append.1 hpre).symm
      have hpos : 0 < st.length := length_pos_iff.2 hne
      generalize (c :: rest).drop st.length = tail at hcut ⊢
      rw [hcut, length_append] at hfuel
      rw [hcut, utf8_append, length_append] at hlen
      obtain ⟨ids, hloop, hdecode⟩ := encodeLoop_spec hids fuel tail (by omega) (by omega)
      refine ⟨id :: ids, by rw [hloop]; rfl, ?_⟩
      rw [hcut, utf8_append, ← singleton_append, decodeBytes_append, hdecode, decodeBytes_singleton,
        tokenBytes_of_vocab h.gpt2 (hids _ hmem), flatMap_decodeChar_ascii hascii]
    · rename_i hfind
      have hno : ∀ st ∈ t.specialTokens, ¬st.1 <+: c :: rest := fun st hst hp =>
        find?_eq_none.1 hfind st hst (decide_eq_true hp)
      obtain ⟨hpos, hle⟩ := nextSpecial_bounds hno
      dsimp only
      have hcut := (take_append_drop (t.nextSpecial (c :: rest)) (c :: rest)).symm
      have hsegment : ((c :: rest).take (t.nextSpecial (c :: rest))).length = t.nextSpecial (c :: rest) := by
        rw [length_take, Nat.min_eq_left hle]
      have htail : ((c :: rest).drop (t.nextSpecial (c :: rest))).length ≤ fuel := by
        rw [length_drop]
        omega
      generalize (c :: rest).take (t.nextSpecial (c :: rest)) = segment at hcut hsegment ⊢
      generalize (c :: rest).drop (t.nextSpecial (c :: rest)) = tail at hcut htail ⊢
      rw [hcut, utf8_append, length_append] at hlen
      obtain ⟨ids, hraw, hsegmentBytes⟩ := encodeRaw_spec hl h (show (utf8 segment).length < 2147483648 by omega)
      obtain ⟨more, hloop, hdecode⟩ := encodeLoop_spec hids fuel tail htail (by omega)
      refine ⟨ids ++ more, ?_, ?_⟩
      · rw [if_neg (length_pos_iff.1 (by omega)), hraw, Option.bind_some, hloop]
        rfl
      · rw [hcut, utf8_append, decodeBytes_append, hsegmentBytes, hdecode]

end level

/-- **Byte-level tokenization is lossless** for texts of fewer than 2^31 bytes, when the id of every special token has that
token's text: `encode` returns, and decoding what it returns gives the text's bytes. -/
theorem byte_level_lossless (hb : Built t) (h : ByteLevel env t) (hids : ∀ st ∈ t.specialTokens, t.vocab[st.2]? = some st.1)
    (text : List Char) (hlen : (utf8 text).length < 2147483648) :
    ∃ ids, t.encode env text = some ids ∧ t.decodeBytes ids = utf8 text := by
  have hl := hb.loaded
  have hbos : t.bosPrefix text = [] := by
    unfold Tokenizer.bosPrefix
    rw [if_neg (by rw [h.notBos]; exact fun hc => Bool.false_ne_true hc.1)]
  unfold Tokenizer.encode
  rw [hbos]
  split
  · obtain ⟨ids, hraw, hdecode⟩ := encodeRaw_spec hl h hlen
    exact ⟨ids, by rw [hraw]; rfl, hdecode⟩
  · obtain ⟨ids, hloop, hdecode⟩ := encodeLoop_spec hl h hids text.length text le_rfl hlen
    exact ⟨ids, by rw [hloop]; rfl, hdecode⟩

/-! ## Concrete vocabularies -/

theorem getElem?_setVocab {id i : Nat} {token x : List Char} : (i = id → (setVocab vocab id token)[i]? = some token) ∧
    (i ≠ id → vocab[i]? = some x → (setVocab vocab id token)[i]? = some x) := by
  have hlen : id < (vocab ++ replicate (id + 1 - vocab.length) []).length := by
    rw [length_append, length_replicate]
    omega
  refine ⟨?_, fun hne hx => ?_⟩
  · rintro rfl
    exact getElem?_set_self hlen
  · rw [setVocab, getElem?_set_ne (Ne.symm hne), getElem?_append_left (lt_of_getElem? hx)]
    exact hx

/-- Loading a vocabulary whose tokens and ids are distinct. -/
theorem hfVocabLoop_spec : ∀ (entries : List (List Char × Nat)) (acc : List (List Char) × TokenIds),
    (∀ e ∈ entries, e.2 < 4294967296) → (entries.map Prod.fst).Nodup → (entries.map Prod.snd).Nodup →
    ∃ acc', hfVocabLoop (entries.map fun e => (e.1, some e.2)) acc = .ok acc' ∧
      (∀ s n, acc'.2.lookup s = some n ↔ (s, n) ∈ entries ∨ (∀ e ∈ entries, e.1 ≠ s) ∧ acc.2.lookup s = some n) ∧
      (∀ e ∈ entries, acc'.1[e.2]? = some e.1) ∧
      (∀ i x, (∀ e ∈ entries, e.2 ≠ i) → acc.1[i]? = some x → acc'.1[i]? = some x)
  | [], acc, _, _, _ => ⟨acc, rfl, fun s n => by simp, nofun, fun _ _ _ h => h⟩
  | (token, id) :: entries, acc, hlt, hkeys, hids => by
    rw [map_cons, nodup_cons] at hkeys hids
    have hkey : ∀ e ∈ entries, e.1 ≠ token := fun e he heq => hkeys.1 (mem_map.2 ⟨e, he, heq⟩)
    have hid : ∀ e ∈ entries, e.2 ≠ id := fun e he heq => hids.1 (mem_map.2 ⟨e, he, heq⟩)
    obtain ⟨acc', hload, hlookup, hvocab, hold⟩ := hfVocabLoop_spec entries (setVocab acc.1 id token, acc.2.insert token id)
      (forall_mem_cons.1 hlt).2 hkeys.2 hids.2
    refine ⟨acc', ?_, fun s n => ?_, forall_mem_cons.2 ⟨hold id token hid ((getElem?_setVocab (x := token)).1 rfl), hvocab⟩,
      fun i x hi hx => ?_⟩
    · rw [map_cons, hfVocabLoop, asU32, Nat.mod_eq_of_lt (hlt _ mem_cons_self)]
      exact hload
    · rw [hlookup, Maps.lookup_insert, mem_cons]
      by_cases hs : s = token
      · subst hs
        rw [if_pos rfl, Option.some.injEq]
        constructor
        · rintro (h | ⟨-, rfl⟩)
          · exact absurd rfl (hkey _ h)
          · exact .inl (.inl rfl)
        · rintro ((h | h) | ⟨h, -⟩)
          · cases h
            exact .inr ⟨hkey, rfl⟩
          · exact absurd rfl (hkey _ h)
          · exact absurd rfl (h _ mem_cons_self)
      · rw [if_neg hs]
        have hne : (s, n) ≠ (token, id) := fun h => hs (congrArg Prod.fst h)
        have hall : (∀ e ∈ (token, id) :: entries, e.1 ≠ s) ↔ ∀ e ∈ entries, e.1 ≠ s := by
          rw [forall_mem_cons]
          exact ⟨fun h => h.2, fun h => ⟨fun heq => hs heq.symm, h⟩⟩
        rw [hall]
        simp only [hne, false_or]
    · exact hold i x (forall_mem_cons.1 hi).2 (getElem?_setVocab.2 (Ne.symm (hi _ mem_cons_self)) hx)

/-- The 256 byte symbols, and the word that marks a GPT-2 vocabulary. -/
def byteEntries : List (List Char × Nat) :=
  ("Ġthe".toList, 256) :: (range 256).map fun n => ([byteToGpt2Char (UInt8.ofNat n)], n)

variable {e : List Char × Nat}

theorem id_le_of_mem (h : e ∈ byteEntries) : e.2 ≤ 256 := by
  rcases mem_cons.1 h with rfl | h
  · exact le_rfl
  · obtain ⟨n, hn, rfl⟩ := mem_map.1 h
    exact Nat.le_of_lt (mem_range.1 hn)

theorem byteToGpt2Char_injective : Function.Injective byteToGpt2Char := fun a b h => by
  have := congrArg decodeChar h
  rw [decodeChar_byteToGpt2Char, decodeChar_byteToGpt2Char] at this
  exact singleton_inj.1 this

/-- A vocabulary of the byte symbols with `added` as added tokens, and no merges. -/
def byteVocabulary (added : List (List Char × Nat)) : HfTokenizer where
  model := some
    { vocab := some (byteEntries.map fun e => (e.1, some e.2))
      merges := []
      ignoreMerges := false
      hasUnkToken := false
      byteFallback := false }
  addedTokens := added.map fun a => (some a.1, some a.2)
  pretok := none
  normalizerIsNfc := false
  spDummyPrefix := false

/-- What the loop over the byte symbols leaves. -/
def ByteLoaded (loaded : List (List Char) × TokenIds) : Prop :=
  hfVocabLoop (byteEntries.map fun e => (e.1, some e.2))
    (replicate ((byteEntries.map fun e => (e.1, some e.2)).length + 100) [], ∅) = .ok loaded

theorem byteEntries_load : ∃ loaded, ByteLoaded loaded ∧
    (∀ s n, loaded.2.lookup s = some n ↔ (s, n) ∈ byteEntries) ∧ ∀ e ∈ byteEntries, loaded.1[e.2]? = some e.1 := by
  have hsymbols : ((range 256).map fun n => [byteToGpt2Char (UInt8.ofNat n)]).Nodup := by
    refine Nodup.map_on (fun x hx y hy hxy => ?_) nodup_range
    have h := congrArg UInt8.toNat (byteToGpt2Char_injective (singleton_inj.1 hxy))
    rw [UInt8.toNat_ofNat', UInt8.toNat_ofNat', Nat.mod_eq_of_lt (mem_range.1 hx),
      Nat.mod_eq_of_lt (mem_range.1 hy)] at h
    exact h
  have hkeys : (byteEntries.map Prod.fst).Nodup := by
    rw [byteEntries, map_cons, map_map, nodup_cons]
    refine ⟨fun hmem => ?_, hsymbols⟩
    obtain ⟨n, -, hn⟩ := mem_map.1 hmem
    have hlen : 1 = "Ġthe".toList.length := congrArg length hn
    exact absurd hlen (by decide)
  have hids : (byteEntries.map Prod.snd).Nodup := by
    rw [byteEntries, map_cons, map_map, nodup_cons]
    simp [Function.comp_def, nodup_range]
  have hlt : ∀ e ∈ byteEntries, e.2 < 4294967296 := fun e he => Nat.lt_of_le_of_lt (id_le_of_mem he) (by decide)
  obtain ⟨loaded, hload, hlookup, hvocab, -⟩ := hfVocabLoop_spec byteEntries _ hlt hkeys hids
  exact ⟨loaded, hload, fun s n => by rw [hlookup]; simp, hvocab⟩

/-- The tokenizer a byte vocabulary gives, from what its loops leave. -/
def byteTokenizer (vocab : List (List Char)) (ids : TokenIds) (special : List (List Char × Nat)) : Tokenizer where
  vocab := vocab
  tokenToId := ids
  table := .empty
  byteToId := some (byteIdOf ids)
  specialTokens := sortSpecial special
  bosId := ((ids.lookup "<|endoftext|>".toList).or (ids.lookup "<s>".toList)).getD 1
  addBos := false
  isGpt2Bpe := true
  spBpe := false
  ignoreMergesMaxChunkBytes := none
  spDummyPrefix := false
  hfPretok := none
  normalizerNfc := false

theorem fromHfJson_byteVocabulary {added special : List (List Char × Nat)} {loaded : List (List Char) × TokenIds}
    (hload : ByteLoaded loaded)
    (hadded : hfAddedLoop (added.map fun a => (some a.1, some a.2)) (loaded.1, loaded.2, []) = (vocab, ids, special))
    (hmark : (ids.lookup "Ġthe".toList).isSome = true) :
    fromHfJson (byteVocabulary added) = .ok (byteTokenizer vocab ids special) := by
  have hbuild : buildByteToId ids true = .ok (byteIdOf ids) := by
    unfold buildByteToId
    rw [find?_eq_none.2 (fun b _ => by simp)]
  unfold fromHfJson byteVocabulary
  dsimp only
  rw [show hfVocabLoop _ _ = _ from hload]
  dsimp only
  rw [hadded]
  simp only [hmark, Bool.true_or, filterMap_nil, Bool.not_false, Bool.and_self, if_true, hbuild]
  rfl

theorem mem_sortSpecial {tokens : List (List Char × Nat)} {st : List Char × Nat} : st ∈ sortSpecial tokens ↔ st ∈ tokens :=
  mem_insertionSort _

theorem byteLevel_byteTokenizer (env : TokenizerEnv) {special : List (List Char × Nat)}
    (hbytes : ∀ e ∈ byteEntries, ids.lookup e.1 = some e.2)
    (hentries : ∀ s n, ids.lookup s = some n → vocab[n]? = some s)
    (hspecial : ∀ st ∈ special, st.1 ≠ [] ∧ ∀ c ∈ st.1, c.toNat < 128) :
    ByteLevel env (byteTokenizer vocab ids special) := by
  refine ⟨rfl, fun b => ⟨b.toNat, ?_, ?_⟩, hentries, fun s hs => ?_, rfl, rfl, fun st hst => ?_⟩
  · refine hbytes ([byteToGpt2Char b], b.toNat) (mem_cons_of_mem _ (mem_map.2 ⟨b.toNat, ?_, ?_⟩))
    · exact mem_range.2 (UInt8.toNat_lt b)
    · rw [UInt8.ofNat_toNat]
  · have := UInt8.toNat_lt b
    show b.toNat ≠ 4294967295
    omega
  · rw [mem_singleton.1 hs]
    rfl
  · exact hspecial st (mem_sortSpecial.1 hst)

theorem id_ne_of_mem (h : e ∈ byteEntries) : e.2 ≠ 257 ∧ e.2 ≠ 258 := by
  have := id_le_of_mem h
  omega

theorem key_ne_of_mem (h : e ∈ byteEntries) : e.1 ≠ ['<', 'a', '>'] ∧ e.1 ≠ ['<', 'b', '>'] := by
  rcases mem_cons.1 h with rfl | h
  · decide
  · obtain ⟨n, -, rfl⟩ := mem_map.1 h
    exact ⟨fun heq => absurd (cons.inj heq).2 (by decide), fun heq => absurd (cons.inj heq).2 (by decide)⟩

/-- Two added tokens of one id, and the first one again under another id. -/
def readdedToken : HfTokenizer := byteVocabulary [(['<', 'a', '>'], 257), (['<', 'b', '>'], 257), (['<', 'a', '>'], 258)]

/-- **A token added twice is lossy**: the ids lead back to their entries, but the id the encoder emits for `<a>` is the one
whose entry became `<b>`. -/
theorem readded_token_is_lossy : ∃ t, fromHfJson readdedToken = .ok t ∧ ∀ env, ByteLevel env t ∧
    (t.encode env ['<', 'a', '>']).map t.decodeBytes = some (utf8 ['<', 'b', '>']) ∧
    utf8 ['<', 'b', '>'] ≠ utf8 ['<', 'a', '>'] := by
  obtain ⟨loaded, hload, hlookup, hvocab⟩ := byteEntries_load
  have ht : ∀ hmark, fromHfJson readdedToken = _ := fun hmark => fromHfJson_byteVocabulary hload rfl hmark
  generalize hwords : setVocab _ (asU32 258) _ = words, hids : (AList.insert _ (asU32 258) _ : TokenIds) = ids at ht
  have hids' : ∀ s, ids.lookup s = if s = ['<', 'a', '>'] then some 258 else if s = ['<', 'b', '>'] then some 257
      else loaded.2.lookup s := by
    intro s
    rw [← hids, Maps.lookup_insert, Maps.lookup_insert, Maps.lookup_insert]
    split <;> rfl
  have hb : words[257]? = some ['<', 'b', '>'] := by
    rw [← hwords]
    exact getElem?_setVocab.2 (by decide) ((getElem?_setVocab (x := [])).1 rfl)
  have hbytes : ∀ e ∈ byteEntries, ids.lookup e.1 = some e.2 := fun e he => by
    obtain ⟨hna, hnb⟩ := key_ne_of_mem he
    rw [hids', if_neg hna, if_neg hnb]
    exact (hlookup e.1 e.2).2 he
  have hentries : ∀ s n, ids.lookup s = some n → words[n]? = some s := by
    intro s n hs
    rw [hids'] at hs
    split at hs
    · rename_i heq
      cases hs
      rw [← hwords, heq]
      exact (getElem?_setVocab (x := [])).1 rfl
    · split at hs
      · rename_i heq
        cases hs
        rw [heq]
        exact hb
      · have hmem := (hlookup s n).1 hs
        obtain ⟨hne, hne'⟩ := id_ne_of_mem hmem
        rw [← hwords]
        exact getElem?_setVocab.2 hne' (getElem?_setVocab.2 hne (getElem?_setVocab.2 hne (hvocab _ hmem)))
  refine ⟨_, ht (congrArg Option.isSome (hbytes _ mem_cons_self)), fun env =>
    ⟨byteLevel_byteTokenizer env hbytes hentries (by simp), ?_, by decide⟩⟩
  show Option.map _ (some [257]) = _
  rw [Option.map_some, decodeBytes_singleton, tokenBytes_of_vocab rfl hb]
  rfl

/-- One added token, in front of and behind other text. -/
theorem byte_level_lossless_oneToken : ∃ t, fromHfJson (byteVocabulary [(['<', 'a', '>'], 257)]) = .ok t ∧
    ∀ env, ∃ ids, t.encode env ['x', '<', 'a', '>', 'é'] = some ids ∧ t.decodeBytes ids = utf8 ['x', '<', 'a', '>', 'é'] := by
  obtain ⟨loaded, hload, hlookup, hvocab⟩ := byteEntries_load
  have hbytes : ∀ e ∈ byteEntries, (loaded.2.insert ['<', 'a', '>'] 257).lookup e.1 = some e.2 := fun e he => by
    rw [Maps.lookup_insert, if_neg (key_ne_of_mem he).1]
    exact (hlookup e.1 e.2).2 he
  have hnew : (setVocab loaded.1 257 ['<', 'a', '>'])[257]? = some ['<', 'a', '>'] := (getElem?_setVocab (x := [])).1 rfl
  have hentries : ∀ s n, (loaded.2.insert ['<', 'a', '>'] 257).lookup s = some n →
      (setVocab loaded.1 257 ['<', 'a', '>'])[n]? = some s := by
    intro s n hs
    rw [Maps.lookup_insert] at hs
    split at hs
    · rename_i heq
      cases hs
      rw [heq]
      exact hnew
    · have hmem := (hlookup s n).1 hs
      exact getElem?_setVocab.2 (id_ne_of_mem hmem).1 (hvocab _ hmem)
  have ht : fromHfJson (byteVocabulary [(['<', 'a', '>'], 257)]) = _ :=
    fromHfJson_byteVocabulary hload rfl (congrArg Option.isSome (hbytes _ mem_cons_self))
  refine ⟨_, ht, fun env => byte_level_lossless (.hfJson _ ht) (byteLevel_byteTokenizer env hbytes hentries (by simp)) ?_ _
    (by decide)⟩
  intro st hst
  rw [mem_singleton.1 (mem_sortSpecial.1 hst)]
  exact hnew

end Hipfire.Tokens

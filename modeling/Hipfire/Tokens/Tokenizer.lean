import Hipfire.Base.Search
import Hipfire.Tokens.Bpe
import Hipfire.Tokens.Gpt2Bytes
import Hipfire.Tokens.Pretok
/-!
# Tokenizer — loading a vocabulary, encoding and decoding

The constructors take what they read out of the model file: the entries of the vocabulary in the order they are met, the
merge rules, the added tokens and the flags.  Regexes and the NFC normalizer are inputs.
-/
namespace Hipfire.Tokens

inductive Side
  | left
  | right
  deriving DecidableEq, Repr

inductive TokenizerError
  | metadataMissing (field : String)
  | missingByteSymbol (byte : UInt8) (char : Char)
  | missingMergeOperand (rank : Nat) (left right : List Char) (missingSide : Side)
  | missingMergeResult (rank : Nat) (expected : List Char)
  deriving DecidableEq, Repr

/-- `HashMap<String, u32>`. -/
abbrev TokenIds : Type := AList fun _ : List Char => Nat

/-- What the encoder takes from libraries: the canonical regex with its lookahead, and the normalizer. -/
structure TokenizerEnv where
  canonicalRe : Regex
  canonicalTail : WsTail
  nfc : List Char → List Char

structure Tokenizer where
  vocab : List (List Char)
  tokenToId : TokenIds
  table : MergeTable
  byteToId : Option (UInt8 → Nat)
  specialTokens : List (List Char × Nat)
  bosId : Nat
  addBos : Bool
  isGpt2Bpe : Bool
  spBpe : Bool
  ignoreMergesMaxChunkBytes : Option Nat
  spDummyPrefix : Bool
  hfPretok : Option Gpt2Pretokenizer
  normalizerNfc : Bool

/-- `as u32`. -/
def asU32 (n : Nat) : Nat := n % 4294967296

/-! ## Loading -/

/-- A further rule: its result at the next rank, the pair's rank unless an earlier rule has the pair. -/
def MergeTable.push (t : MergeTable) (left right result : Nat) : MergeTable where
  rank a b := (t.rank a b).or (if a = left ∧ b = right then some t.merges.length else none)
  merges := t.merges ++ [result]
  inRange {a b r} h := by
    rw [List.length_append, List.length_singleton]
    rcases Option.or_eq_some_iff.1 h with h | ⟨-, h⟩
    · exact Nat.lt_succ_of_lt (t.inRange h)
    · split at h
      · cases h
        exact Nat.lt_succ_self _
      · cases h

def MergeTable.empty : MergeTable := ⟨fun _ _ => none, [], fun h => nomatch h⟩

def resolveLoop (ids : TokenIds) : List (List Char × List Char) → MergeTable → Except TokenizerError MergeTable
  | [], t => .ok t
  | (l, r) :: rules, t =>
    match ids.lookup l with
    | none => .error (.missingMergeOperand t.merges.length l r .left)
    | some left =>
      match ids.lookup r with
      | none => .error (.missingMergeOperand t.merges.length l r .right)
      | some right =>
        match ids.lookup (l ++ r) with
        | none => .error (.missingMergeResult t.merges.length (l ++ r))
        | some result => resolveLoop ids rules (t.push left right result)

def resolveMerges (rules : List (List Char × List Char)) (ids : TokenIds) : Except TokenizerError MergeTable :=
  resolveLoop ids rules .empty

/-- `BYTE_ABSENT`. -/
def byteAbsent : Nat := 4294967295

/-- The id of a byte's symbol. -/
def byteIdOf (ids : TokenIds) (b : UInt8) : Nat := (ids.lookup [byteToGpt2Char b]).getD byteAbsent

def buildByteToId (ids : TokenIds) (absentOk : Bool) : Except TokenizerError (UInt8 → Nat) :=
  match ((List.range 256).map UInt8.ofNat).find? fun b => !absentOk && (ids.lookup [byteToGpt2Char b]).isNone with
  | some b => .error (.missingByteSymbol b (byteToGpt2Char b))
  | none => .ok (byteIdOf ids)

/-- `splitn(2, ' ')` of a rule. -/
def splitRule (rule : List Char) : Option (List Char × List Char) := cutAt [' '] rule

/-- Longest first, in the order of the file among equals. -/
def sortSpecial (tokens : List (List Char × Nat)) : List (List Char × Nat) :=
  tokens.insertionSort fun a b => (utf8 b.1).length ≤ (utf8 a.1).length

/-- What the two GGUF constructors read. -/
structure GgufTokenizer where
  tokens : Option (List (Option (List Char)))
  merges : List (Option (List Char))
  bosTokenId : Option Nat
  model : Option (List Char)
  addSpacePrefix : Option Bool

/-- Vocabulary entries that look like markers. -/
def isMarker (token : List Char) : Bool :=
  (decide ("<|".toList <+: token) && decide ("|>".toList <:+ token)) ||
    (decide (['<'] <+: token) && decide (['>'] <:+ token) && decide (3 < (utf8 token).length) && !token.contains ' ')

/-- The two GGUF constructors, on what they read. -/
def loadGguf (src : GgufTokenizer) : Except TokenizerError Tokenizer :=
  match src.tokens with
  | none => .error (.metadataMissing "tokenizer.ggml.tokens")
  | some tokens =>
    let vocab := tokens.map fun token => token.getD []
    let ids := vocab.zipIdx.foldl (fun ids x => ids.insert x.1 (asU32 x.2)) (∅ : TokenIds)
    let isGpt2Bpe := decide (src.model.getD "llama".toList = "gpt2".toList)
    let special := (vocab.zipIdx.filter fun x => isMarker x.1).map fun x => (x.1, asU32 x.2)
    match resolveMerges (src.merges.filterMap fun rule => rule.bind splitRule) ids with
    | .error e => .error e
    | .ok table =>
      match if isGpt2Bpe then (buildByteToId ids false).map some else .ok none with
      | .error e => .error e
      | .ok byteToId =>
        .ok
          { vocab := vocab, tokenToId := ids, table := table, byteToId := byteToId, specialTokens := sortSpecial special,
            bosId := src.bosTokenId.getD 1, addBos := false, isGpt2Bpe := isGpt2Bpe, spBpe := false,
            ignoreMergesMaxChunkBytes := none, spDummyPrefix := src.addSpacePrefix.getD true, hfPretok := none,
            normalizerNfc := false }

def fromGguf (src : GgufTokenizer) : Except TokenizerError Tokenizer := loadGguf src

def fromGgufMetaJson (src : GgufTokenizer) : Except TokenizerError Tokenizer := loadGguf src

/-- A merge rule of a `tokenizer.json`. -/
inductive HfMerge
  | text (rule : List Char)
  | pair (left right : List Char)
  | other

def HfMerge.rule : HfMerge → Option (List Char × List Char)
  | .text rule => splitRule rule
  | .pair left right => some (left, right)
  | .other => none

structure HfModel where
  vocab : Option (List (List Char × Option Nat))
  merges : List HfMerge
  ignoreMerges : Bool
  hasUnkToken : Bool
  byteFallback : Bool

structure HfTokenizer where
  model : Option HfModel
  /-- `content` and `id` of the added tokens. -/
  addedTokens : List (Option (List Char) × Option Nat)
  /-- The `Split` chain, when there is one and every regex of it compiles. -/
  pretok : Option Gpt2Pretokenizer
  normalizerIsNfc : Bool
  spDummyPrefix : Bool

/-- `vocab[id] = token`, after growing the vocabulary to hold it. -/
def setVocab (vocab : List (List Char)) (id : Nat) (token : List Char) : List (List Char) :=
  (vocab ++ List.replicate (id + 1 - vocab.length) []).set id token

def hfVocabLoop : List (List Char × Option Nat) → List (List Char) × TokenIds →
    Except TokenizerError (List (List Char) × TokenIds)
  | [], acc => .ok acc
  | (_, none) :: _,          _   => .error (.metadataMissing "model.vocab[*]: non-integer id")
  | (token, some n) :: rest, acc => hfVocabLoop rest (setVocab acc.1 (asU32 n) token, acc.2.insert token (asU32 n))

/-- The added tokens, over the vocabulary and the ids: every one is also a special token. -/
def hfAddedLoop : List (Option (List Char) × Option Nat) → List (List Char) × TokenIds × List (List Char × Nat) →
    List (List Char) × TokenIds × List (List Char × Nat)
  | [], acc => acc
  | (some content, some n) :: rest, acc =>
    hfAddedLoop rest (setVocab acc.1 (asU32 n) content, acc.2.1.insert content (asU32 n), acc.2.2 ++ [(content, asU32 n)])
  | _ :: rest, acc => hfAddedLoop rest acc

def fromHfJson (src : HfTokenizer) : Except TokenizerError Tokenizer :=
  match src.model with
  | none => .error (.metadataMissing "model")
  | some model =>
    match model.vocab with
    | none => .error (.metadataMissing "model.vocab")
    | some entries =>
      match hfVocabLoop entries (List.replicate (entries.length + 100) [], ∅) with
      | .error e => .error e
      | .ok loaded =>
        match hfAddedLoop src.addedTokens (loaded.1, loaded.2, []) with
        | (vocab, ids, special) =>
          let bosId := ((ids.lookup "<|endoftext|>".toList).or (ids.lookup "<s>".toList)).getD 1
          let nGpt2 := ids.keys.countP fun token => decide (['Ġ'] <+: token)
          let nSp := ids.keys.countP fun token => decide (['▁'] <+: token)
          let isGpt2Bpe := (ids.lookup "Ġthe".toList).isSome || ((ids.lookup ['Ġ']).isSome && decide (nSp < nGpt2))
          match resolveMerges (model.merges.filterMap HfMerge.rule) ids with
          | .error e => .error e
          | .ok table =>
            match if isGpt2Bpe then (buildByteToId ids (!model.hasUnkToken && !model.byteFallback)).map some else .ok none with
            | .error e => .error e
            | .ok byteToId =>
              .ok
                { vocab := vocab, tokenToId := ids, table := table, byteToId := byteToId,
                  specialTokens := sortSpecial special, bosId := bosId, addBos := false, isGpt2Bpe := isGpt2Bpe,
                  spBpe := false,
                  ignoreMergesMaxChunkBytes :=
                    if isGpt2Bpe && model.ignoreMerges then some ((entries.map fun e => e.1.length).foldl max 0) else none,
                  spDummyPrefix := src.spDummyPrefix, hfPretok := if isGpt2Bpe then src.pretok else none,
                  normalizerNfc := isGpt2Bpe && src.normalizerIsNfc }

namespace Tokenizer

/-! ## Decoding -/

def isHexDigit (c : Char) : Bool := decide ('0' ≤ c ∧ c ≤ '9') || decide ('a' ≤ c ∧ c ≤ 'f') || decide ('A' ≤ c ∧ c ≤ 'F')

def hexValue (c : Char) : Nat :=
  if '0' ≤ c ∧ c ≤ '9' then c.toNat - '0'.toNat
  else if 'a' ≤ c ∧ c ≤ 'f' then c.toNat - 'a'.toNat + 10
  else c.toNat - 'A'.toNat + 10

/-- `u8::from_str_radix(hex, 16)` of hexadecimal digits. -/
def byteOfHex (hex : List Char) : Option UInt8 :=
  let value := hex.foldl (fun n c => n * 16 + hexValue c) 0
  if value < 256 then some (UInt8.ofNat value) else none

/-- `decode_hex_escapes_bytes`; a closing bracket behind too large a number is dropped with the escape read as text. -/
def hexEscapeLoop : Nat → List Char → List UInt8
  | 0, _ => []
  | _ + 1, [] => []
  | fuel + 1, c :: rest =>
    if c ≠ '<' then String.utf8EncodeChar c ++ hexEscapeLoop fuel rest
    else
      match rest with
      | '0' :: x :: rest' =>
        if x = 'x' ∨ x = 'X' then
          let hex := rest'.takeWhile isHexDigit
          let after := rest'.dropWhile isHexDigit
          if after.head? = some '>' ∧ hex ≠ [] then
            match byteOfHex hex with
            | some byte => byte :: hexEscapeLoop fuel after.tail
            | none => utf8 ('<' :: '0' :: x :: hex) ++ hexEscapeLoop fuel after.tail
          else utf8 ('<' :: '0' :: x :: hex) ++ hexEscapeLoop fuel after
        else utf8 ['<', '0'] ++ hexEscapeLoop fuel (x :: rest')
      | ['0'] => utf8 ['<', '0']
      | rest => utf8 ['<'] ++ hexEscapeLoop fuel rest

def decodeHexEscapesBytes (s : List Char) : List UInt8 := hexEscapeLoop s.length s

/-- `decode_token_bytes_into`: the bytes one id appends. -/
def tokenBytes (t : Tokenizer) (id : Nat) : List UInt8 :=
  match t.vocab[id]? with
  | none => []
  | some token =>
    if t.isGpt2Bpe then token.flatMap decodeChar
    else decodeHexEscapesBytes (token.map fun c => if c = '▁' then ' ' else c)

def decodeBytes (t : Tokenizer) (tokens : List Nat) : List UInt8 := tokens.flatMap t.tokenBytes

/-! ## Encoding -/

def defaultPretokenizer (env : TokenizerEnv) : Gpt2Pretokenizer :=
  ⟨⟨env.canonicalRe, some env.canonicalTail, false, false⟩, []⟩

def pretokenizer (env : TokenizerEnv) (t : Tokenizer) : Gpt2Pretokenizer := t.hfPretok.getD (defaultPretokenizer env)

/-- The whole-chunk shortcut of `ignore_merges`. -/
def wholeChunk (t : Tokenizer) (chunk : List UInt8) : Option Nat :=
  match t.ignoreMergesMaxChunkBytes with
  | some maxBytes => if chunk.length ≤ maxBytes then t.tokenToId.lookup (chunk.map byteToGpt2Char) else none
  | none => none

/-- `encode_gpt2_chunk`; nothing where the source panics or does not return. -/
def encodeGpt2Chunk (t : Tokenizer) (chunk : List UInt8) (out : List Nat) : Option (List Nat) :=
  if chunk = [] then some out
  else
    match t.wholeChunk chunk with
    | some id => some (out ++ [id])
    | none =>
      t.byteToId.bind fun byteToId =>
        match (chunk.map byteToId).filter (· ≠ byteAbsent) with
        | [] => some out
        | [x] => some (out ++ [x])
        | syms => bpeMergeSymbols t.table syms out

def encodeGpt2Bpe (env : TokenizerEnv) (t : Tokenizer) (text : List Char) : Option (List Nat) :=
  ((t.pretokenizer env).pieces text).foldlM (fun out piece => t.encodeGpt2Chunk (utf8 piece) out) []

/-- The SentencePiece normalization: spaces become `▁`, with a leading one when the model asks for it. -/
def spText (t : Tokenizer) (text : List Char) : List Char :=
  (if t.spDummyPrefix then ['▁'] else []) ++ text.map fun c => if c = ' ' then '▁' else c

/-- The longest entry, of at most `maxChars` characters, that starts the text. -/
def longestEntry (t : Tokenizer) (maxChars : Nat) (rest : List Char) : Option (Nat × Nat) :=
  (List.range (min maxChars rest.length)).reverse.findSome? fun k =>
    (t.tokenToId.lookup (rest.take (k + 1))).map fun id => (k + 1, id)

def sentencepieceLoop (t : Tokenizer) (maxChars : Nat) : Nat → List Char → List Nat
  | 0, _ => []
  | _ + 1, [] => []
  | fuel + 1, c :: rest =>
    match t.longestEntry maxChars (c :: rest) with
    | some (len, id) => id :: sentencepieceLoop t maxChars fuel ((c :: rest).drop len)
    | none => (t.tokenToId.lookup [c]).toList ++ sentencepieceLoop t maxChars fuel rest

def encodeSentencepiece (t : Tokenizer) (text : List Char) : List Nat :=
  let sp := t.spText text
  let maxChars := ((t.tokenToId.keys.map List.length).max?).getD 1
  sentencepieceLoop t maxChars sp.length sp

def hexDigit (n : Nat) : Char := if n < 10 then Char.ofNat ('0'.toNat + n) else Char.ofNat ('A'.toNat + (n - 10))

/-- `<0xXX>`. -/
def bytePiece (b : UInt8) : List Char := ['<', '0', 'x', hexDigit (b.toNat / 16), hexDigit (b.toNat % 16), '>']

/-- The symbols of one character: its own, its bytes', or the unknown token's. -/
def spSymbols (t : Tokenizer) (c : Char) : List Nat :=
  match t.tokenToId.lookup [c] with
  | some id => [id]
  | none =>
    let bytes := String.utf8EncodeChar c
    let resolved := bytes.filterMap fun b => t.tokenToId.lookup (bytePiece b)
    if resolved.length < bytes.length then (t.tokenToId.lookup "<unk>".toList).toList else resolved

def encodeSpBpe (t : Tokenizer) (text : List Char) : Option (List Nat) :=
  bpeMergeSymbols t.table ((t.spText text).flatMap t.spSymbols) []

def encodeRaw (env : TokenizerEnv) (t : Tokenizer) (text : List Char) : Option (List Nat) :=
  if t.spBpe then t.encodeSpBpe text
  else if !t.isGpt2Bpe then some (t.encodeSentencepiece text)
  else if t.normalizerNfc then t.encodeGpt2Bpe env (env.nfc text)
  else t.encodeGpt2Bpe env text

/-- The earlier of `next` and the first position of a special token. -/
def earlierSpecial (remaining : List Char) (next : Nat) (st : List Char × Nat) : Nat :=
  match cutAt st.1 remaining with
  | some (before, _) => if before.length < next then before.length else next
  | none => next

/-- The first position of a special token, or the end. -/
def nextSpecial (t : Tokenizer) (remaining : List Char) : Nat :=
  t.specialTokens.foldl (earlierSpecial remaining) remaining.length

/-- The loop over special tokens; nothing if it does not end within its fuel. -/
def encodeLoop (env : TokenizerEnv) (t : Tokenizer) : Nat → List Char → Option (List Nat)
  | _, [] => some []
  | 0, _ :: _ => none
  | fuel + 1, c :: rest =>
    match t.specialTokens.find? fun st => decide (st.1 <+: c :: rest) with
    | some (st, id) => (encodeLoop env t fuel ((c :: rest).drop st.length)).map (id :: ·)
    | none =>
      let next := t.nextSpecial (c :: rest)
      let segment := (c :: rest).take next
      (if segment = [] then some [] else t.encodeRaw env segment).bind fun ids =>
        (encodeLoop env t fuel ((c :: rest).drop next)).map (ids ++ ·)

/-- The beginning-of-text id, unless the text starts with its literal. -/
def bosPrefix (t : Tokenizer) (text : List Char) : List Nat :=
  let bosStr := (t.vocab[t.bosId]?).getD []
  if t.addBos ∧ (bosStr = [] ∨ ¬bosStr <+: text) then [t.bosId] else []

def encode (env : TokenizerEnv) (t : Tokenizer) (text : List Char) : Option (List Nat) :=
  (if t.specialTokens = [] then t.encodeRaw env text else t.encodeLoop env text.length text).map (t.bosPrefix text ++ ·)

end Tokenizer
end Hipfire.Tokens

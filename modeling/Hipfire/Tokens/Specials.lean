import Hipfire.Tokens.Lossless
/-!
# Specials — the loop of `encode` over special tokens ends

Every turn takes a special token or the segment in front of the next one off the text.  An added token whose content is empty
matches everywhere and takes nothing: it comes last, as the shortest, so it is taken wherever no other special token starts,
and the loop then stays where it is (`empty_added_token_loops`).
-/
namespace Hipfire.Tokens

open Tokenizer List

namespace Tokenizer

/-- What a turn of the loop leaves of the text. -/
def remainingAfter (t : Tokenizer) (remaining : List Char) : List Char :=
  match t.specialTokens.find? fun st => decide (st.1 <+: remaining) with
  | some (st, _) => remaining.drop st.length
  | none => remaining.drop (t.nextSpecial remaining)

/-- What a turn of the loop emits. -/
def turnIds (env : TokenizerEnv) (t : Tokenizer) (remaining : List Char) : Option (List Nat) :=
  match t.specialTokens.find? fun st => decide (st.1 <+: remaining) with
  | some (_, id) => some [id]
  | none =>
    let segment := remaining.take (t.nextSpecial remaining)
    if segment = [] then some [] else t.encodeRaw env segment

/-- What reaches the merge from any segment of the text has fewer than 2^31 bytes: `bpe_merge_symbols` links its slots by
`i32`. -/
def Short (env : TokenizerEnv) (t : Tokenizer) (text : List Char) : Prop :=
  ∀ segment, segment <:+: text → (utf8 (if t.normalizerNfc then env.nfc segment else segment)).length < 2147483648

end Tokenizer

variable {env : TokenizerEnv} {t : Tokenizer}

theorem encodeLoop_cons (fuel : Nat) (c : Char) (rest : List Char) : t.encodeLoop env (fuel + 1) (c :: rest) =
    (t.turnIds env (c :: rest)).bind fun ids => (t.encodeLoop env fuel (t.remainingAfter (c :: rest))).map (ids ++ ·) := by
  rw [encodeLoop, turnIds, remainingAfter]
  cases t.specialTokens.find? fun st => decide (st.1 <+: c :: rest) with
  | none | some st => rfl

/-! ## A segment is encoded -/

theorem slice_within (text : List Char) (start stop : Nat) : slice text start stop <:+: text :=
  (drop_suffix _ _).isInfix.trans ( List.take_prefix _ _).isInfix

variable {text : List Char} {s : PretokSplitter}

theorem lastGap_within {p : List Char} {gap : Nat} (h : p ∈ s.lastGap text gap) : p <:+: text := by
  unfold PretokSplitter.lastGap at h
  split at h
  · rw [mem_singleton.1 h]
    exact (drop_suffix _ _).isInfix
  · cases h

theorem splitLoop_within : ∀ {fuel pos gap : Nat} {p : List Char}, p ∈ s.splitLoop text fuel pos gap → p <:+: text
  | 0, _, _, _, h => by cases h
  | fuel + 1, pos, gap, p, h => by
    rw [PretokSplitter.splitLoop] at h
    split at h
    · split at h
      · exact lastGap_within h
      · split at h
        · split at h
          · exact splitLoop_within h
          · exact lastGap_within h
        · rcases mem_append.1 h with h | h
          · rcases mem_append.1 h with h | h
            · split at h
              · rw [mem_singleton.1 h]
                exact slice_within ..
              · cases h
            · split at h
              · have hin := infix_of_mem_flatten h
                rw [flatten_digitGroupsOf] at hin
                exact hin.trans (slice_within ..)
              · rw [mem_singleton.1 h]
                exact slice_within ..
          · exact splitLoop_within h
    · exact lastGap_within h

/-- **Every piece of a chain of splits stands in the text.** -/
theorem pieces_within (p : Gpt2Pretokenizer) {piece : List Char} (h : piece ∈ p.pieces text) : piece <:+: text := by
  have hfold : ∀ (ss : List PretokSplitter) (cur : List (List Char)), (∀ q ∈ cur, q <:+: text) →
      ∀ q ∈ ss.foldl (fun cur s => cur.flatMap s.split) cur, q <:+: text := by
    intro ss
    induction ss with
    | nil => exact fun _ hcur => hcur
    | cons s ss ih =>
      intro cur hcur
      refine ih _ fun q hq => ?_
      obtain ⟨r, hr, hqr⟩ := mem_flatMap.1 hq
      exact (splitLoop_within hqr).trans (hcur r hr)
  exact hfold _ _ (fun q hq => splitLoop_within hq) piece h

theorem length_utf8_within {a b : List Char} (h : a <:+: b) : (utf8 a).length ≤ (utf8 b).length := by
  obtain ⟨x, y, rfl⟩ := h
  rw [utf8_append, utf8_append, length_append, length_append]
  omega

theorem encodeGpt2Chunk_returns (hl : Loaded t) (hgpt2 : t.isGpt2Bpe = true) {chunk : List UInt8}
    (hlen : chunk.length < 2147483648) (out : List Nat) : ∃ ids, t.encodeGpt2Chunk chunk out = some ids := by
  unfold encodeGpt2Chunk
  split
  · exact ⟨_, rfl⟩
  split
  · exact ⟨_, rfl⟩
  rw [hl.bytes hgpt2, Option.bind_some]
  have hcount : ((chunk.map (byteIdOf t.tokenToId)).filter (· ≠ byteAbsent)).length < 2147483648 := by
    have := length_filter_le (· ≠ byteAbsent) (chunk.map (byteIdOf t.tokenToId))
    rw [length_map] at this
    omega
  generalize (chunk.map (byteIdOf t.tokenToId)).filter (· ≠ byteAbsent) = syms at hcount
  split
  · exact ⟨_, rfl⟩
  · exact ⟨_, rfl⟩
  · exact ⟨_, bpeMergeSymbols_eq t.table syms out hcount⟩

theorem encodeGpt2Bpe_returns (hl : Loaded t) (hgpt2 : t.isGpt2Bpe = true)
    (hlen : (utf8 text).length < 2147483648) : ∃ ids, t.encodeGpt2Bpe env text = some ids := by
  have hfold : ∀ (pieces : List (List Char)) (out : List Nat), (∀ p ∈ pieces, p <:+: text) →
      ∃ ids, pieces.foldlM (fun out piece => t.encodeGpt2Chunk (utf8 piece) out) out = some ids := by
    intro pieces
    induction pieces with
    | nil => exact fun out _ => ⟨out, rfl⟩
    | cons p pieces ih =>
      intro out hin
      have hp := length_utf8_within (hin p mem_cons_self)
      obtain ⟨ids, hids⟩ := encodeGpt2Chunk_returns hl hgpt2 (show (utf8 p).length < 2147483648 by omega) out
      rw [foldlM_cons, hids]
      exact ih ids (forall_mem_cons.1 hin).2
  exact hfold _ [] fun p hp => pieces_within _ hp

theorem encodeRaw_returns (hl : Loaded t)
    (hlen : (utf8 (if t.normalizerNfc then env.nfc text else text)).length < 2147483648) :
    ∃ ids, t.encodeRaw env text = some ids := by
  unfold encodeRaw
  rw [if_neg (by rw [hl.plain]; exact Bool.false_ne_true)]
  split
  · exact ⟨_, rfl⟩
  rename_i hgpt2
  rw [Bool.not_eq_true, Bool.not_eq_false'] at hgpt2
  split at hlen
  · rename_i hnfc
    rw [if_pos hnfc]
    exact encodeGpt2Bpe_returns hl hgpt2 hlen
  · rename_i hnfc
    rw [if_neg hnfc]
    exact encodeGpt2Bpe_returns hl hgpt2 hlen

/-! ## Every turn takes something -/

theorem loadGguf_special {src : GgufTokenizer} (h : loadGguf src = .ok t) :
    ∃ special, t.specialTokens = sortSpecial special := by
  unfold loadGguf at h
  split at h
  · cases h
  dsimp only at h
  split at h
  · cases h
  · split at h
    · cases h
    · cases h
      exact ⟨_, rfl⟩

theorem fromHfJson_special {src : HfTokenizer} (h : fromHfJson src = .ok t) :
    ∃ special, t.specialTokens = sortSpecial special := by
  unfold fromHfJson at h
  split at h
  · cases h
  split at h
  · cases h
  split at h
  · cases h
  dsimp only at h
  split at h
  · cases h
  · split at h
    · cases h
    · cases h
      exact ⟨_, rfl⟩

/-- Special tokens stand longest first. -/
theorem Built.longest_first (h : Built t) : t.specialTokens.Pairwise fun a b => (utf8 b.1).length ≤ (utf8 a.1).length := by
  have hsorted : ∃ special, t.specialTokens = sortSpecial special := by
    cases h with
    | hfJson src h => exact fromHfJson_special h
    | gguf src h | ggufMetaJson src h => exact loadGguf_special h
  obtain ⟨special, hspecial⟩ := hsorted
  rw [hspecial]
  exact pairwise_insertionSort _ special

theorem utf8_length_pos {s : List Char} (h : s ≠ []) : 0 < (utf8 s).length := by
  cases s with
  | nil => exact absurd rfl h
  | cons c s =>
    rw [utf8, flatMap_cons, length_append, String.length_utf8EncodeChar]
    have := c.utf8Size_pos
    omega

/-- The special token a turn takes is not empty, if no special token is or every character is one. -/
theorem found_ne_nil (hb : Built t) (h : (∀ st ∈ t.specialTokens, st.1 ≠ []) ∨ ∀ c, ∃ st ∈ t.specialTokens, st.1 = [c])
    {c : Char} {rest : List Char} {st : List Char × Nat}
    (hfind : (t.specialTokens.find? fun st => decide (st.1 <+: c :: rest)) = some st) : st.1 ≠ [] := by
  rcases h with h | h
  · exact h st (mem_of_find?_eq_some hfind)
  intro hnil
  obtain ⟨_, before, after, hsplit, hbefore⟩ := find?_eq_some_iff_append.1 hfind
  obtain ⟨one, hone, hchar⟩ := h c
  have hlong := hb.longest_first
  rw [hsplit] at hone hlong
  have hpos : 0 < (utf8 one.1).length := by
    rw [hchar]
    exact utf8_length_pos (cons_ne_nil _ _)
  -- the character's own token is longer, so it stands in front and would have been found
  rcases mem_append.1 hone with hin | hin
  · have hno := hbefore one hin
    rw [hchar, decide_eq_true (cons_prefix_cons.2 ⟨rfl, List.nil_prefix ⟩)] at hno
    exact Bool.false_ne_true hno
  · have hshort : (utf8 st.1).length = 0 := by rw [hnil]; rfl
    rcases mem_cons.1 hin with rfl | hin
    · omega
    · have := (pairwise_cons.1 (pairwise_append.1 hlong).2.1).1 one hin
      omega

/-- **A turn takes at least one byte.** -/
theorem remainingAfter_lt (hb : Built t)
    (h : (∀ st ∈ t.specialTokens, st.1 ≠ []) ∨ ∀ c, ∃ st ∈ t.specialTokens, st.1 = [c]) {r : List Char} (hr : r ≠ []) :
    ∃ taken, taken ≠ [] ∧ r = taken ++ t.remainingAfter r := by
  cases r with
  | nil => exact absurd rfl hr
  | cons c rest =>
    unfold remainingAfter
    split
    · rename_i st id hfind
      have hpre : st <+: c :: rest := by simpa using find?_some hfind
      exact ⟨st, found_ne_nil hb h hfind, (prefix_iff_eq_append.1 hpre).symm⟩
    · rename_i hfind
      have hno : ∀ st ∈ t.specialTokens, ¬st.1 <+: c :: rest := fun st hst hp =>
        find?_eq_none.1 hfind st hst (decide_eq_true hp)
      obtain ⟨hpos, hle⟩ := nextSpecial_bounds hno
      refine ⟨(c :: rest).take (t.nextSpecial (c :: rest)), ?_, (take_append_drop _ _).symm⟩
      apply length_pos_iff.1
      rw [length_take, Nat.min_eq_left hle]
      exact hpos

theorem turnIds_returns (hl : Loaded t) {r : List Char} (hshort : t.Short env r) : ∃ ids, t.turnIds env r = some ids := by
  unfold turnIds
  split
  · exact ⟨_, rfl⟩
  · dsimp only
    split
    · exact ⟨_, rfl⟩
    · exact encodeRaw_returns hl (hshort _ ( List.take_prefix _ _).isInfix)

theorem encodeLoop_returns (hl : Loaded t) (hturn : ∀ r, r ≠ [] → ∃ taken, taken ≠ [] ∧ r = taken ++ t.remainingAfter r) :
    ∀ (fuel : Nat) (r : List Char), r.length ≤ fuel → t.Short env r → ∃ ids, t.encodeLoop env fuel r = some ids
  | fuel, [], _, _ => by cases fuel <;> exact ⟨[], by rw [encodeLoop]⟩
  | fuel + 1, c :: rest, hfuel, hshort => by
    obtain ⟨taken, hne, hcut⟩ := hturn (c :: rest) (cons_ne_nil _ _)
    have hlen := congrArg length hcut
    have hpos := length_pos_iff.2 hne
    rw [length_append] at hlen
    have hrest : t.remainingAfter (c :: rest) <:+: c :: rest := ⟨taken, [], by rw [append_nil, ← hcut]⟩
    obtain ⟨ids, hids⟩ := turnIds_returns hl hshort
    obtain ⟨more, hmore⟩ := encodeLoop_returns hl hturn fuel (t.remainingAfter (c :: rest)) (by omega)
      fun segment hs => hshort segment (hs.trans hrest)
    exact ⟨ids ++ more, by rw [encodeLoop_cons, hids, Option.bind_some, hmore]; rfl⟩

/-- An empty special token is taken where no other one starts, and takes nothing. -/
theorem remainingAfter_stuck {c : Char} (hempty : ∃ st ∈ t.specialTokens, st.1 = [])
    (hc : ∀ st ∈ t.specialTokens, st.1 ≠ [c]) : t.remainingAfter [c] = [c] := by
  unfold remainingAfter
  split
  · rename_i st id hfind
    have hpre : st <+: [c] := by simpa using find?_some hfind
    have hne := hc _ (mem_of_find?_eq_some hfind)
    have hnil : st = [] := by
      cases st with
      | nil => rfl
      | cons d st =>
        obtain ⟨rfl, hst⟩ := cons_prefix_cons.1 hpre
        rw [prefix_nil.1 hst] at hne
        exact absurd rfl hne
    rw [hnil]
    rfl
  · rename_i hfind
    obtain ⟨st, hst, hnil⟩ := hempty
    have := find?_eq_none.1 hfind st hst
    rw [hnil] at this
    exact absurd (decide_eq_true List.nil_prefix) this

/-- **Encoding terminates exactly when no special token is empty**, or every character is a special token itself: then every
turn of the loop takes at least one byte off any text, and `encode` returns on every text whose segments reach the merge with
fewer than 2^31 bytes. -/
theorem encode_returns_iff (hb : Built t) : (∀ r, r ≠ [] → (utf8 (t.remainingAfter r)).length < (utf8 r).length) ∧
        (∀ text, t.Short env text → ∃ ids, t.encode env text = some ids) ↔
      (∀ st ∈ t.specialTokens, st.1 ≠ []) ∨ ∀ c, ∃ st ∈ t.specialTokens, st.1 = [c] := by
  constructor
  · rintro ⟨htake, -⟩
    by_contra hno
    push Not at hno
    obtain ⟨hempty, c, hc⟩ := hno
    have := htake [c] (cons_ne_nil _ _)
    rw [remainingAfter_stuck hempty hc] at this
    exact Nat.lt_irrefl _ this
  · intro h
    have hturn : ∀ r, r ≠ [] → ∃ taken, taken ≠ [] ∧ r = taken ++ t.remainingAfter r := fun r hr => remainingAfter_lt hb h hr
    refine ⟨fun r hr => ?_, fun text hshort => ?_⟩
    · obtain ⟨taken, hne, hcut⟩ := hturn r hr
      have hlen := congrArg (fun s => (utf8 s).length) hcut
      have hpos := utf8_length_pos hne
      rw [utf8_append, length_append] at hlen
      omega
    · unfold Tokenizer.encode
      split
      · obtain ⟨ids, hids⟩ := encodeRaw_returns hb.loaded (hshort text (infix_refl _))
        exact ⟨_, by rw [hids]; rfl⟩
      · obtain ⟨ids, hids⟩ := encodeLoop_returns hb.loaded hturn text.length text le_rfl hshort
        exact ⟨_, by rw [hids]; rfl⟩

/-- A vocabulary of one entry and one special token. -/
def oneSpecial : GgufTokenizer where
  tokens := some [some ['a'], some "<|a|>".toList]
  merges := []
  bosTokenId := none
  model := none
  addSpacePrefix := none

theorem encode_returns_iff_oneSpecial : ∃ t, fromGguf oneSpecial = .ok t ∧ t.specialTokens = [("<|a|>".toList, 1)] ∧
    ∀ env text, t.Short env text → ∃ ids, t.encode env text = some ids := by
  refine ⟨_, rfl, by decide, fun env => ?_⟩
  exact ((encode_returns_iff (Built.gguf oneSpecial rfl)).2 (.inl (by decide))).2

/-- A `tokenizer.json` with an added token whose content is empty. -/
def emptyAdded : HfTokenizer where
  model := some
    { vocab := some [(['a'], some 0)], merges := [], ignoreMerges := false, hasUnkToken := false, byteFallback := false }
  addedTokens := [(some [], some 1)]
  pretok := none
  normalizerIsNfc := false
  spDummyPrefix := false

/-- **An empty added token is accepted and stops `encode`**: on the text `a` a turn takes nothing, however many are taken. -/
theorem empty_added_token_loops : ∃ t, fromHfJson emptyAdded = .ok t ∧ t.remainingAfter ['a'] = ['a'] ∧
    ∀ env fuel, t.encodeLoop env fuel ['a'] = none := by
  refine ⟨_, rfl, rfl, fun env fuel => ?_⟩
  induction fuel with
  | zero => rw [Tokenizer.encodeLoop]
  | succ fuel ih =>
    exact congrArg (fun o : Option (List Nat) => o.map ([1] ++ ·)) ih

end Hipfire.Tokens

import Mathlib
/-!
# Pretok — the chain of regex splits in front of the merge

A regex is any function that finds a match from a position on, on character boundaries.  Positions are character indices:
the byte offsets of the source never fall inside a character.
-/
namespace Hipfire.Tokens

open List

/-- A compiled regex: `find_at`. -/
structure Regex where
  find : List Char → Nat → Option (Nat × Nat)
  bounds : ∀ {text pos start stop}, find text pos = some (start, stop) → pos ≤ start ∧ start ≤ stop ∧ stop ≤ text.length

/-- The emulated lookahead: the whitespace test, and the span of the plain `\s+` alternative in the match at a position. -/
structure WsTail where
  wsOnly : List Char → Bool
  group : List Char → Nat → Option (Nat × Nat)

structure PretokSplitter where
  re : Regex
  wsTail : Option WsTail
  digitGroups : Bool
  dropGaps : Bool

/-- `&text[start..stop]`. -/
def slice (text : List Char) (start stop : Nat) : List Char := (text.take stop).drop start

/-- `ws_lookahead_end`: a whitespace run of two characters or more hands its last one back. -/
def wsLookaheadEnd (tail : WsTail) (text : List Char) (start stop : Nat) : Nat :=
  let run := slice text start stop
  if run = [] then stop
  else if run.length = 1 ∨ tail.wsOnly run = false then stop
  else if tail.group text start ≠ some (start, stop) then stop
  else stop - 1

def groupLoop : Nat → List Char → List Char → List (List Char)
  | _, chunk, [] => [chunk]
  | want, chunk, c :: cs =>
    if chunk.length = want then chunk :: groupLoop 3 [c] cs else groupLoop want (chunk ++ [c]) cs

/-- Right-aligned groups of three: the first one holds `n % 3` characters. -/
def digitGroupsOf (run : List Char) : List (List Char) := groupLoop (if run.length % 3 = 0 then 3 else run.length % 3) [] run

namespace PretokSplitter

/-- What is left behind the last match. -/
def lastGap (s : PretokSplitter) (text : List Char) (gap : Nat) : List (List Char) :=
  if s.dropGaps = false ∧ gap < text.length then [text.drop gap] else []

/-- The end of a match, after the lookahead. -/
def matchEnd (s : PretokSplitter) (text : List Char) (start stop : Nat) : Nat :=
  match s.wsTail with
  | some tail => if stop < text.length then wsLookaheadEnd tail text start stop else stop
  | none => stop

def splitLoop (s : PretokSplitter) (text : List Char) : Nat → Nat → Nat → List (List Char)
  | 0, _, _ => []
  | fuel + 1, pos, gap =>
    if pos < text.length then
      match s.re.find text pos with
      | none => s.lastGap text gap
      | some (start, stop) =>
        if stop = start then
          -- an empty match: one character joins the gap
          if start < text.length then s.splitLoop text fuel (start + 1) gap else s.lastGap text gap
        else
          let stop := s.matchEnd text start stop
          let run := slice text start stop
          (if s.dropGaps = false ∧ gap < start then [slice text gap start] else []) ++
            (if s.digitGroups then digitGroupsOf run else [run]) ++ s.splitLoop text fuel stop stop
    else s.lastGap text gap

/-- `split`: every turn moves forward, so the text's length bounds the turns. -/
def split (s : PretokSplitter) (text : List Char) : List (List Char) := s.splitLoop text (text.length + 1) 0 0

end PretokSplitter

/-- A chain of splits; never empty. -/
structure Gpt2Pretokenizer where
  first : PretokSplitter
  others : List PretokSplitter

namespace Gpt2Pretokenizer

def stages (p : Gpt2Pretokenizer) : List PretokSplitter := p.first :: p.others

def pieces (p : Gpt2Pretokenizer) (text : List Char) : List (List Char) :=
  p.others.foldl (fun cur s => cur.flatMap s.split) (p.first.split text)

end Gpt2Pretokenizer

/-! ## Nothing is lost -/

theorem flatten_groupLoop : ∀ (want : Nat) (chunk cs : List Char), (groupLoop want chunk cs).flatten = chunk ++ cs
  | _, chunk, [] => by simp [groupLoop]
  | want, chunk, c :: cs => by
    rw [groupLoop]
    split
    · rw [flatten_cons, flatten_groupLoop 3 [c] cs]
      rfl
    · rw [flatten_groupLoop want (chunk ++ [c]) cs, append_assoc]
      rfl

theorem flatten_digitGroupsOf (run : List Char) : (digitGroupsOf run).flatten = run := by
  rw [digitGroupsOf, flatten_groupLoop, nil_append]

/-- The lookahead leaves the match at least one character. -/
theorem matchEnd_bounds (s : PretokSplitter) (text : List Char) {start stop : Nat} (h : start < stop) (hle : stop ≤ text.length) :
    start < s.matchEnd text start stop ∧ s.matchEnd text start stop ≤ stop := by
  unfold PretokSplitter.matchEnd
  split
  · split
    · unfold wsLookaheadEnd
      dsimp only
      split
      · exact ⟨h, Nat.le_refl _⟩
      split
      · exact ⟨h, Nat.le_refl _⟩
      split
      · exact ⟨h, Nat.le_refl _⟩
      · have hlen : (slice text start stop).length = stop - start := by
          rw [slice, length_drop, length_take, Nat.min_eq_left hle]
        omega
    · exact ⟨h, Nat.le_refl _⟩
  · exact ⟨h, Nat.le_refl _⟩

theorem slice_append_drop {text : List Char} {a b : Nat} (h : a ≤ b) : slice text a b ++ text.drop b = text.drop a := by
  have hb : text.drop b = (text.drop a).drop (b - a) := by rw [drop_drop, Nat.add_sub_cancel' h]
  rw [slice, drop_take, hb, take_append_drop]

variable {s : PretokSplitter}

theorem flatten_lastGap (h : s.dropGaps = false) (text : List Char) (gap : Nat) :
    (s.lastGap text gap).flatten = text.drop gap := by
  unfold PretokSplitter.lastGap
  split
  · rw [flatten_singleton]
  · rename_i hgap
    have : text.length ≤ gap := Nat.le_of_not_lt fun hlt => hgap ⟨h, hlt⟩
    rw [drop_eq_nil_of_le this]
    rfl

theorem flatten_splitLoop (h : s.dropGaps = false) (text : List Char) : ∀ {fuel pos gap : Nat},
    text.length < fuel + pos → gap ≤ pos → pos ≤ text.length → (s.splitLoop text fuel pos gap).flatten = text.drop gap
  | 0, pos, gap, hfuel, hgap, hpos => absurd hfuel (by omega)
  | fuel + 1, pos, gap, hfuel, hgap, hpos => by
    rw [PretokSplitter.splitLoop]
    split
    · split
      · exact flatten_lastGap h text gap
      · rename_i start stop hfind
        obtain ⟨hstart, hle, hlen⟩ := s.re.bounds hfind
        split
        · split
          · exact flatten_splitLoop h text (by omega) (by omega) (by omega)
          · exact flatten_lastGap h text gap
        · obtain ⟨hlo, hhi⟩ := matchEnd_bounds s text (show start < stop by omega) hlen
          generalize s.matchEnd text start stop = stop' at hlo hhi ⊢
          have hrun : (if s.digitGroups = true then digitGroupsOf (slice text start stop') else [slice text start stop']).flatten =
              slice text start stop' := by
            split
            · exact flatten_digitGroupsOf _
            · exact flatten_singleton
          have hgapped : (if s.dropGaps = false ∧ gap < start then [slice text gap start] else []).flatten =
              slice text gap start := by
            split
            · exact flatten_singleton
            · rename_i hno
              have : start ≤ gap := Nat.le_of_not_lt fun hlt => hno ⟨h, hlt⟩
              rw [slice, drop_eq_nil_of_le (by rw [length_take]; omega)]
              rfl
          rw [flatten_append, flatten_append, hrun, hgapped,
            flatten_splitLoop h text (show text.length < fuel + stop' by omega) (Nat.le_refl _) (by omega), append_assoc,
            slice_append_drop (Nat.le_of_lt hlo), slice_append_drop (by omega)]
    · exact flatten_lastGap h text gap

theorem flatten_split (h : s.dropGaps = false) (text : List Char) : (s.split text).flatten = text :=
  flatten_splitLoop h text (by omega) (Nat.le_refl _) (Nat.zero_le _)

theorem flatten_flatMap_split (h : s.dropGaps = false) (ps : List (List Char)) :
    (ps.flatMap s.split).flatten = ps.flatten := by
  induction ps with
  | nil => rfl
  | cons p ps ih => rw [flatMap_cons, flatten_append, ih, flatten_split h, flatten_cons]

/-- **A chain of isolated splits cuts the text and drops nothing.** -/
theorem Gpt2Pretokenizer.flatten_pieces {p : Gpt2Pretokenizer} (h : ∀ s ∈ p.stages, s.dropGaps = false) (text : List Char) :
    (p.pieces text).flatten = text := by
  have hfold : ∀ (ss : List PretokSplitter) (cur : List (List Char)), (∀ s ∈ ss, s.dropGaps = false) →
      (ss.foldl (fun cur s => cur.flatMap s.split) cur).flatten = cur.flatten := by
    intro ss
    induction ss with
    | nil => exact fun _ _ => rfl
    | cons s ss ih =>
      intro cur hss
      rw [foldl_cons, ih _ (forall_mem_cons.1 hss).2,
        flatten_flatMap_split (hss s mem_cons_self)]
  rw [pieces, hfold _ _ (forall_mem_cons.1 h).2, flatten_split (h _ mem_cons_self)]

end Hipfire.Tokens

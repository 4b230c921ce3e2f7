import Hipfire.Stops.Exact
/-!
# Splits — when the output does not depend on the chunks

A stop that lies inside another one may be complete at the end of a chunk while the other, which begins before it, is not.
Then the output depends on where the chunks end.  Without such stops it is the text before the stop that begins first.
-/
namespace Hipfire.Stops

open List

/-- The text before the stop that begins first, and whether there is one. -/
def beforeFirst (stops : List String) (text : Bytes) : Bytes × Bool :=
  match earliest (stopsOf stops) text with
  | some place => (text.take place, true)
  | none => (text, false)

/-- A stop that none of the others begins holds another one inside, away from both of its ends. -/
def Nested (stops : List String) : Prop :=
  ∃ u ∈ stops, ∃ v ∈ stops, v ≠ "" ∧ (∀ w ∈ stops, w ≠ "" → textBytes w <+: textBytes u → w = u) ∧
    ∃ a b : String, a ≠ "" ∧ b ≠ "" ∧ u = a ++ v ++ b

variable {stops : List String}

/-- A stop that none of the others begins, at the beginning of a given one. -/
theorem exists_shortest : ∀ (n : Nat) (q : String), (textBytes q).length ≤ n → q ∈ stops → q ≠ "" →
    ∃ u ∈ stops, u ≠ "" ∧ textBytes u <+: textBytes q ∧ ∀ w ∈ stops, w ≠ "" → textBytes w <+: textBytes u → w = u
  | 0, q, hlen, _, hne => absurd (textBytes_eq_nil.1 (length_eq_zero_iff.1 (Nat.le_zero.1 hlen))) hne
  | n + 1, q, hlen, hq, hne => by
    by_cases hother : ∃ w ∈ stops, w ≠ "" ∧ textBytes w <+: textBytes q ∧ w ≠ q
    · obtain ⟨w, hw, hwne, hpre, hwq⟩ := hother
      have hlt : (textBytes w).length < (textBytes q).length := by
        refine Nat.lt_of_le_of_ne hpre.length_le fun heq => hwq (textBytes_inj ?_)
        exact hpre.eq_of_length heq
      obtain ⟨u, hu, hune, hpu, hmin⟩ := exists_shortest n w (by omega) hw hwne
      exact ⟨u, hu, hune, hpu.trans hpre, hmin⟩
    · refine ⟨q, hq, hne, prefix_refl _, fun w hw hwne hpre => ?_⟩
      by_contra hwq
      exact hother ⟨w, hw, hwne, hpre, hwq⟩

/-- **Without nested stops, no stop begins before what was sent ends**, whatever text follows. -/
theorem first_of_not_nested (hn : ¬ Nested stops) {text out more : Bytes} {p : String} (hp : p ∈ stops) (hpne : p ≠ "")
    (hstop : out ++ textBytes p <+: text) (hfirst : ∀ s ∈ stopsOf stops, ∀ a b, text = a ++ s ++ b → out.length ≤ a.length) :
    ∀ s ∈ stopsOf stops, ∀ a b, text ++ more = a ++ s ++ b → out.length ≤ a.length := by
  intro s hs a b heq
  by_contra hlt
  obtain ⟨q, hq, hqne, rfl⟩ := mem_stopsOf.1 hs
  obtain ⟨u, hu, hune, ⟨rest, hrest⟩, hmin⟩ := exists_shortest (textBytes q).length q le_rfl hq hqne
  obtain ⟨tail, htail⟩ := hstop
  have hjoin : a ++ (textBytes u ++ (rest ++ b)) = out ++ (textBytes p ++ tail ++ more) := by
    rw [← append_assoc (textBytes u), hrest, ← append_assoc, ← heq, ← htail]
    simp only [append_assoc]
  obtain ⟨c, rfl⟩ := prefix_of_append_eq hjoin (by omega)
  rw [append_assoc, append_cancel_left_eq] at hjoin
  have htext : text = a ++ (c ++ textBytes p ++ tail) := by
    rw [← htail]
    simp only [append_assoc]
  have hjoin' : textBytes u ++ (rest ++ b) = (c ++ textBytes p ++ tail) ++ more := by
    rw [hjoin]
    simp only [append_assoc]
  by_cases hle : (textBytes u).length ≤ (c ++ textBytes p ++ tail).length
  · -- the stop is complete in the text pushed
    obtain ⟨d, hd⟩ := prefix_of_append_eq hjoin' hle
    refine hlt (hfirst _ (mem_stopsOf.2 ⟨u, hu, hune, rfl⟩) a d ?_)
    rw [htext, ← hd, append_assoc]
  · -- it is not, and the one that matched lies inside it
    obtain ⟨e, he⟩ := prefix_of_append_eq hjoin'.symm (by omega)
    have hinside : textBytes u = c ++ textBytes p ++ (tail ++ e) := by
      rw [← he, append_assoc]
    obtain ⟨a', b', hu', hc, hb'⟩ := textBytes_within hpne hinside
    refine hn ⟨u, hu, p, hp, hpne, hmin, a', b', ?_, ?_, hu'⟩
    · rintro rfl
      rw [hc] at hlt
      exact hlt (Nat.le_of_eq (congrArg length (append_nil a)))
    · rintro rfl
      have hnil : tail ++ e = [] := hb'
      rw [← he, append_eq_nil_iff.1 hnil |>.2, append_nil] at hle
      exact hle le_rfl

/-! ## Streams -/

/-- A text in chunks. -/
def SplitOf (text : String) (chunks : List String) : Prop := (chunks.map textBytes).flatten = textBytes text

theorem beforeFirst_of_some {text out : Bytes} (hocc : ∃ p ∈ stopsOf stops, out ++ p <+: text)
    (hfirst : ∀ s ∈ stopsOf stops, ∀ a b, text = a ++ s ++ b → out.length ≤ a.length) :
    beforeFirst stops text = (out, true) := by
  obtain ⟨p, hp, rest, rfl⟩ := hocc
  unfold beforeFirst
  cases hplace : earliest (stopsOf stops) (out ++ p ++ rest) with
  | none => exact absurd ⟨out, rest, rfl⟩ (earliest_none.1 hplace p hp)
  | some place =>
    obtain ⟨⟨s, hs, a, b, heq, rfl⟩, hmin⟩ := earliest_some hplace
    have hlen : a.length = out.length := Nat.le_antisymm (hmin p hp out rest rfl) (hfirst s hs a b heq)
    rw [hlen, append_assoc]
    dsimp only
    rw [take_left]

theorem pushAll_pushed : ∀ (m : StopMatcher) (chunks : List Bytes), (pushAll m chunks).2.1 <+: chunks.flatten
  | _, [] => prefix_refl _
  | m, chunk :: chunks => by
    unfold pushAll
    dsimp only
    split
    · exact prefix_append _ _
    · exact (prefix_append_right_inj _).2 (pushAll_pushed _ chunks)

/-- **Without nested stops a stream comes to the text before the stop that begins first.** -/
theorem run_of_not_nested (hn : ¬ Nested stops) {text : String} {chunks : List String} (hsplit : SplitOf text chunks) :
    run stops chunks = beforeFirst stops (textBytes text) := by
  obtain ⟨hstops, -, hend⟩ := stream_exact stops (chunks.map textBytes)
  have hpre := pushAll_pushed (.new stops) (chunks.map textBytes)
  unfold run StopMatcher.finish
  generalize pushAll (.new stops) (chunks.map textBytes) = r at hstops hend hpre ⊢
  rw [hsplit] at hpre hend
  dsimp only
  rcases hend with ⟨hopen, htext⟩ | hclosed
  · have hnone : earliest (stopsOf stops) (textBytes text) = none := by
      rw [earliest_none, ← htext, ← hstops]
      exact hopen.none
    unfold beforeFirst
    rw [hopen.matched, hnone, ← htext]
    exact Prod.ext hopen.sent.symm rfl
  · obtain ⟨more, hmore⟩ := hpre
    obtain ⟨p, hp, hstop⟩ := hclosed.stop
    have hfirst := hclosed.first
    rw [hstops] at hp hfirst
    have hocc : ∃ p ∈ stopsOf stops, r.2.2 ++ p <+: textBytes text :=
      ⟨p, hp, hstop.trans ⟨more, hmore⟩⟩
    obtain ⟨s, hs, hne, rfl⟩ := mem_stopsOf.1 hp
    rw [hclosed.matched, if_pos rfl, append_nil, beforeFirst_of_some hocc]
    rw [← hmore]
    exact first_of_not_nested hn hs hne hstop hfirst

/-- A stop that is complete in the first chunk ends the stream. -/
theorem run_cons_of_earliest {chunk : String} {chunks : List String} {place : Nat}
    (h : earliest (stopsOf stops) (textBytes chunk) = some place) :
    run stops (chunk :: chunks) = ((textBytes chunk).take place, true) := by
  have hne : stopsOf stops ≠ [] := by
    intro hnil
    rw [hnil] at h
    cases h
  have hpush : (StopMatcher.new stops).push (textBytes chunk) =
      ({ StopMatcher.new stops with matched := true }, (textBytes chunk).take place) := by
    have hstops : (StopMatcher.new stops).stops = stopsOf stops := rfl
    have hheld : (StopMatcher.new stops).held ++ textBytes chunk = textBytes chunk := rfl
    unfold StopMatcher.push
    rw [if_neg (nofun), hstops, if_neg hne, hheld]
    dsimp only
    rw [h]
    rfl
  unfold run
  rw [map_cons, pushAll, hpush]
  exact Prod.ext (append_nil _) rfl

/-- **Nested stops make the output depend on the chunks.** -/
theorem nested_splits (hn : Nested stops) : ∃ text chunks chunks', SplitOf text chunks ∧ SplitOf text chunks' ∧
    run stops chunks ≠ run stops chunks' := by
  obtain ⟨u, hu, v, hv, hvne, hmin, a, b, ha, hb, rfl⟩ := hn
  have hune : a ++ v ++ b ≠ "" := by
    intro h
    have hnil := textBytes_eq_nil.2 h
    rw [textBytes_append, append_eq_nil_iff] at hnil
    exact hb (textBytes_eq_nil.1 hnil.2)
  refine ⟨a ++ v ++ b, [a ++ v ++ b], [a ++ v, b], ?_, ?_, ?_⟩
  · exact append_nil _
  · show textBytes (a ++ v) ++ (textBytes b ++ []) = _
    rw [append_nil, ← textBytes_append]
  -- the whole text begins with a stop
  have hwhole : earliest (stopsOf stops) (textBytes (a ++ v ++ b)) = some 0 := by
    cases hplace : earliest (stopsOf stops) (textBytes (a ++ v ++ b)) with
    | none =>
      exact absurd (infix_refl _) (earliest_none.1 hplace _ (mem_stopsOf.2 ⟨_, hu, hune, rfl⟩))
    | some place =>
      have hle := (earliest_some hplace).2 _ (mem_stopsOf.2 ⟨_, hu, hune, rfl⟩) [] [] (by simp)
      rw [length_nil, Nat.le_zero] at hle
      rw [hle]
  -- the first chunk holds one, but not at its beginning
  cases hplace : earliest (stopsOf stops) (textBytes (a ++ v)) with
  | none =>
    refine absurd ?_ (earliest_none.1 hplace _ (mem_stopsOf.2 ⟨v, hv, hvne, rfl⟩))
    exact (suffix_append _ _).isInfix
  | some place =>
    rw [run_cons_of_earliest hwhole, run_cons_of_earliest hplace]
    obtain ⟨⟨s, hs, before, after, heq, rfl⟩, -⟩ := earliest_some hplace
    intro hsame
    have hnil : before = [] := by
      have := (Prod.mk.inj hsame).1
      rw [take_zero, heq, append_assoc, take_left] at this
      exact this.symm
    subst hnil
    obtain ⟨w, hw, hwne, rfl⟩ := mem_stopsOf.1 hs
    have hpre : textBytes w <+: textBytes (a ++ v) := ⟨after, heq.symm⟩
    have hwu := hmin w hw hwne (hpre.trans (by rw [textBytes_append (a ++ v) b]; exact prefix_append _ _))
    have hlen := hpre.length_le
    rw [hwu, textBytes_append (a ++ v) b, length_append] at hlen
    have hpos := length_pos_of_ne_nil fun h => hb (textBytes_eq_nil.1 h)
    omega

/-- **The output does not depend on the chunks just when no stop is nested in another**, and is then the text before the
stop that begins first. -/
theorem splits_agree_iff : (∀ text chunks chunks', SplitOf text chunks → SplitOf text chunks' →
      run stops chunks = run stops chunks' ∧ run stops chunks = beforeFirst stops (textBytes text)) ↔ ¬ Nested stops := by
  constructor
  · intro hall hn
    obtain ⟨text, chunks, chunks', hs, hs', hne⟩ := nested_splits hn
    exact hne (hall text chunks chunks' hs hs').1
  · intro hn text chunks chunks' hs hs'
    rw [run_of_not_nested hn hs, run_of_not_nested hn hs']
    exact ⟨rfl, rfl⟩

/-- One stop is not nested in itself. -/
theorem splits_agree_iff_end : parseStopField (some (.string "END".toList)) = .ok ["END"] ∧
    run ["END"] ["abc E", "N", "D tail"] = run ["END"] ["abc END tail"] := by
  have hparse : parseStopField (some (.string "END".toList)) = .ok ["END"] := by decide
  have hn : ¬ Nested ["END"] := by
    rintro ⟨u, hu, v, hv, -, -, a, b, ha, -, heq⟩
    rw [mem_singleton.1 hu, mem_singleton.1 hv] at heq
    have hlen := congrArg (fun s => (textBytes s).length) heq
    simp only [textBytes_append, length_append] at hlen
    have hpos := length_pos_of_ne_nil fun h => ha (textBytes_eq_nil.1 h)
    omega
  exact ⟨hparse, (splits_agree_iff.2 hn "abc END tail" _ _ (by unfold SplitOf; decide)
    (by unfold SplitOf; decide)).1⟩

/-- The inner stop is complete before the outer one is. -/
theorem nested_output_differs :
    parseStopField (some (.array [.string "abcd".toList, .string "bc".toList])) = .ok ["abcd", "bc"] ∧
    run ["abcd", "bc"] ["abcd"] = ([], true) ∧ run ["abcd", "bc"] ["abc", "d"] = (textBytes "a", true) := by
  refine ⟨by decide, by decide, by decide⟩

end Hipfire.Stops

import Hipfire.Stops.Matcher
/-!
# Exact — what the matcher sends and what it holds back

Until a stop is complete the matcher has sent all of the text but the longest end that may still grow into a stop.  When one
is complete, what was sent ends where a stop begins and holds none itself.
-/
namespace Hipfire.Stops

open List

/-! ## The end held back -/

/-- What `new` makes sure of. -/
structure StopMatcher.Valid (m : StopMatcher) : Prop where
  ne_nil : ∀ p ∈ m.stops, p ≠ []
  lead : ∀ p ∈ m.stops, ∀ b rest, p = b :: rest → isContinuation b = false
  maxLen : ∀ p ∈ m.stops, p.length ≤ m.maxLen

theorem mem_stopsOf {stops : List String} {p : Bytes} : p ∈ stopsOf stops ↔ ∃ s ∈ stops, s ≠ "" ∧ textBytes s = p := by
  unfold stopsOf
  simp only [mem_map, mem_filter, decide_eq_true_eq, and_assoc]

namespace StopMatcher

variable {m : StopMatcher} {text out chunk : Bytes}

theorem new_valid (stops : List String) : (new stops).Valid where
  ne_nil := fun p hp => by
    obtain ⟨s, -, hne, rfl⟩ := mem_stopsOf.1 hp
    exact fun h => hne (textBytes_eq_nil.1 h)
  lead := fun p hp b rest h => by
    obtain ⟨s, -, -, rfl⟩ := mem_stopsOf.1 hp
    exact textBytes_lead h
  maxLen := fun p hp => by
    have hmem : p.length ∈ (stopsOf stops).map length := mem_map_of_mem hp
    show p.length ≤ ((stopsOf stops).map length).max?.getD 0
    cases hmax : ((stopsOf stops).map length).max? with
    | none =>
      rw [max?_eq_none_iff.1 hmax] at hmem
      cases hmem
    | some n => exact (max?_eq_some_iff.1 hmax).2 _ hmem

theorem isPartial_iff {held : Bytes} {k : Nat} : m.isPartial held k = true ↔
    isCharBoundary held (held.length - k) = true ∧
      ∃ stop ∈ m.stops, k < stop.length ∧ held.drop (held.length - k) <+: stop := by
  unfold isPartial
  simp only [Bool.and_eq_true, any_eq_true, decide_eq_true_eq, List.isPrefixOf_iff_prefix]

/-- The tail that is kept is the longest that may grow into a stop. -/
theorem holds_tail (hm : m.Valid) (held : Bytes) :
    Holds m.stops held (held.drop (held.length - m.partialStopSuffixLen held)) where
  suffix := drop_suffix _ _
  begun := by
    rcases findDown_found (m.isPartial held) (min held.length (m.maxLen - 1)) with h | h
    · unfold partialStopSuffixLen
      rw [h, Nat.sub_zero]
      exact .inl (drop_length)
    · right
      obtain ⟨-, stop, hmem, hlt, hpre⟩ := isPartial_iff.1 h
      refine ⟨stop, hmem, hpre, ?_⟩
      rw [length_drop]
      unfold partialStopSuffixLen
      omega
  longest := fun v hv hb => by
    obtain ⟨p, hp, hpre, hlt⟩ := hb
    have hlen := hv.length_le
    have hmax := hm.maxLen p hp
    cases v with
    | nil => exact Nat.zero_le _
    | cons b v =>
      obtain ⟨rest, rfl⟩ := hpre
      have hlead := hm.lead _ hp b (v ++ rest) rfl
      obtain ⟨t, rfl⟩ := hv
      have hstart : (t ++ b :: v).length - (b :: v).length = t.length := by
        rw [length_append, Nat.add_sub_cancel]
      have hp' : m.isPartial (t ++ b :: v) (b :: v).length = true := by
        rw [isPartial_iff, hstart, drop_left]
        refine ⟨?_, _, hp, hlt, prefix_append _ _⟩
        unfold isCharBoundary
        rw [getElem?_append_right le_rfl, Nat.sub_self, getElem?_cons_zero, Option.any_some, hlead]
        exact Bool.or_true _
      have hfound := le_findDown hp' (Nat.le_min.2 ⟨hlen, Nat.le_sub_one_of_lt (Nat.lt_of_lt_of_le hlt hmax)⟩)
        (Nat.succ_ne_zero _)
      rw [length_drop]
      unfold partialStopSuffixLen
      omega

/-! ## One chunk -/

/-- No stop is complete, and all but the tail was sent. -/
structure Open (m : StopMatcher) (text out : Bytes) : Prop where
  matched : m.matched = false
  sent : text = out ++ m.held
  holds : Holds m.stops text m.held
  none : ∀ p ∈ m.stops, ¬ p <:+: text

/-- A stop is complete: what was sent ends where it begins. -/
structure Closed (m : StopMatcher) (text out : Bytes) : Prop where
  matched : m.matched = true
  held : m.held = []
  stop : ∃ p ∈ m.stops, out ++ p <+: text
  first : ∀ p ∈ m.stops, ∀ a b, text = a ++ p ++ b → out.length ≤ a.length

/-- A stop that the chunk completes begins in what is held. -/
theorem Open.occurrence (h : m.Open text out) {p a b : Bytes} (hp : p ∈ m.stops) (heq : text ++ chunk = a ++ p ++ b) :
    ∃ c, a = out ++ c ∧ m.held ++ chunk = c ++ p ++ b := by
  obtain ⟨t, c, ht, rfl, hc⟩ := h.holds.occurrence hp (h.none p hp) heq
  have hout : out = t := append_cancel_right (h.sent.symm.trans ht)
  exact ⟨c, by rw [hout], hc⟩

theorem Closed.none (hm : m.Valid) (h : m.Closed text out) : ∀ p ∈ m.stops, ¬ p <:+: out := by
  rintro p hp ⟨a, b, heq⟩
  obtain ⟨q, -, rest, hrest⟩ := h.stop
  have hle := h.first p hp a (b ++ q ++ rest) (by rw [← hrest, ← heq]; simp only [append_assoc])
  have hpos := length_pos_of_ne_nil (hm.ne_nil p hp)
  rw [← heq, length_append, length_append] at hle
  omega

theorem Valid.of_stops {m' : StopMatcher} (hm : m.Valid) (hs : m'.stops = m.stops) (hl : m'.maxLen = m.maxLen) :
    m'.Valid := by
  refine ⟨?_, ?_, ?_⟩
  · rw [hs]
    exact hm.ne_nil
  · rw [hs]
    exact hm.lead
  · rw [hs, hl]
    exact hm.maxLen

/-- **One chunk**: the matcher stays open, or closes at the earliest stop it sees. -/
theorem push_open (hm : m.Valid) (h : m.Open text out) (chunk : Bytes) :
    (m.push chunk).1.stops = m.stops ∧ (m.push chunk).1.maxLen = m.maxLen ∧
      ((m.push chunk).1.Open (text ++ chunk) (out ++ (m.push chunk).2) ∨
        (m.push chunk).1.Closed (text ++ chunk) (out ++ (m.push chunk).2)) := by
  have htext : text ++ chunk = out ++ (m.held ++ chunk) := by rw [h.sent, append_assoc]
  unfold push
  rw [h.matched]
  simp only [Bool.false_eq_true, if_false]
  split
  · rename_i hnil
    have hheld : m.held = [] := by
      rcases h.holds.begun with hb | ⟨p, hp, -⟩
      · exact hb
      · rw [hnil] at hp
        cases hp
    refine ⟨rfl, rfl, .inl ⟨h.matched, ?_, ?_, ?_⟩⟩
    · rw [htext, hheld, nil_append, append_nil]
    · rw [hheld, hnil]
      exact ⟨nil_suffix, .inl rfl, fun v _ ⟨p, hp, _⟩ => (nomatch hp)⟩
    · rw [hnil]
      exact nofun
  · split
    · rename_i place hplace
      obtain ⟨⟨p, hp, a, b, heq, rfl⟩, hfirst⟩ := earliest_some hplace
      have htake : (m.held ++ chunk).take a.length = a := by
        rw [heq, append_assoc, take_left]
      refine ⟨rfl, rfl, .inr ⟨rfl, rfl, ⟨p, hp, b, ?_⟩, ?_⟩⟩
      · rw [htake, htext, heq, append_assoc, append_assoc, append_assoc]
      intro q hq x y hxy
      obtain ⟨c, rfl, hc⟩ := h.occurrence hq hxy
      have hle := hfirst q hq c y hc
      rw [htake, length_append, length_append]
      exact Nat.add_le_add_left hle _
    · rename_i hnone
      refine ⟨rfl, rfl, .inl ⟨rfl, ?_, ?_, ?_⟩⟩
      · rw [htext, append_assoc, take_append_drop]
      · exact h.holds.append (holds_tail hm _)
      · rintro p hp ⟨a, b, heq⟩
        obtain ⟨c, -, hc⟩ := h.occurrence hp heq.symm
        exact earliest_none.1 hnone p hp ⟨c, b, hc.symm⟩

/-! ## A stream -/

/-- **A stream**, by what each chunk does. -/
theorem pushAll_exact : ∀ (chunks : List Bytes) (m : StopMatcher) (text out : Bytes), m.Valid → m.Open text out →
    let r := pushAll m chunks
    r.1.stops = m.stops ∧ r.1.maxLen = m.maxLen ∧
      ((r.1.Open (text ++ r.2.1) (out ++ r.2.2) ∧ r.2.1 = chunks.flatten) ∨ r.1.Closed (text ++ r.2.1) (out ++ r.2.2))
  | [], m, text, out, _, h => by
    refine ⟨rfl, rfl, .inl ⟨?_, rfl⟩⟩
    show m.Open (text ++ []) (out ++ [])
    rw [append_nil, append_nil]
    exact h
  | chunk :: chunks, m, text, out, hm, h => by
    obtain ⟨hstops, hmax, hstep⟩ := push_open hm h chunk
    unfold pushAll
    dsimp only
    rcases hstep with hopen | hclosed
    · obtain ⟨hs, hl, hrest⟩ := pushAll_exact chunks (m.push chunk).1 _ _ (hm.of_stops hstops hmax) hopen
      rw [hopen.matched]
      simp only [Bool.false_eq_true, if_false]
      refine ⟨hs.trans hstops, hl.trans hmax, ?_⟩
      rw [← append_assoc, ← append_assoc, flatten_cons, append_cancel_left_eq]
      exact hrest
    · rw [hclosed.matched]
      exact ⟨hstops, hmax, .inr hclosed⟩

end StopMatcher

theorem new_open (stops : List String) : (StopMatcher.new stops).Open [] [] where
  matched := rfl
  sent := rfl
  holds := holds_nil
  none := fun p hp h => (StopMatcher.new_valid stops).ne_nil p hp (infix_nil.1 h)

theorem stream_exact (stops : List String) (chunks : List Bytes) : let r := pushAll (.new stops) chunks
    r.1.stops = stopsOf stops ∧ r.1.Valid ∧ ((r.1.Open r.2.1 r.2.2 ∧ r.2.1 = chunks.flatten) ∨ r.1.Closed r.2.1 r.2.2) := by
  obtain ⟨hstops, hmax, hend⟩ := StopMatcher.pushAll_exact chunks _ _ _ (StopMatcher.new_valid stops) (new_open stops)
  exact ⟨hstops, (StopMatcher.new_valid stops).of_stops hstops hmax, hend⟩

/-- **The matcher is exact.**  A stop matched just when the text pushed so far holds one.  Without a match everything was
sent but the tail held back, which is the longest end of the text that is a proper prefix of a stop.  With a match nothing is
held, and what was sent holds no stop and is followed in the text by one. -/
theorem matcher_exact (stops chunks : List String) : let r := pushAll (.new stops) (chunks.map textBytes)
    let text := r.2.1
    let sent := r.2.2 ++ r.1.finish.2
    (r.1.matched = true ↔ ∃ s ∈ stops, s ≠ "" ∧ textBytes s <:+: text) ∧
    (r.1.matched = false → text = (chunks.map textBytes).flatten ∧ sent = text ∧ Holds (stopsOf stops) text r.1.held ∧
      ((∃ s ∈ stops, s ≠ "") → ∃ s ∈ stops, r.1.held <+: textBytes s ∧ r.1.held.length < (textBytes s).length)) ∧
    (r.1.matched = true → r.1.held = [] ∧ (∃ s ∈ stops, s ≠ "" ∧ sent ++ textBytes s <+: text) ∧
      ∀ s ∈ stops, s ≠ "" → ¬ textBytes s <:+: sent) := by
  intro r text sent
  obtain ⟨hstops, hvalid, hend⟩ := stream_exact stops (chunks.map textBytes)
  have hmem : ∀ s ∈ stops, s ≠ "" → textBytes s ∈ r.1.stops := fun s hs hne => by
    rw [hstops]
    exact mem_stopsOf.2 ⟨s, hs, hne, rfl⟩
  rcases hend with ⟨hopen, htext⟩ | hclosed
  · have hm : r.1.matched = false := hopen.matched
    have hsent : sent = text := by
      show r.2.2 ++ r.1.finish.2 = text
      unfold StopMatcher.finish
      rw [hm]
      exact hopen.sent.symm
    refine ⟨⟨fun h => ?_, ?_⟩, fun _ => ⟨htext, hsent, hstops ▸ hopen.holds, ?_⟩, fun h => ?_⟩
    · cases hm.symm.trans h
    · rintro ⟨s, hs, hne, hin⟩
      exact absurd hin (hopen.none _ (hmem s hs hne))
    · rintro ⟨s, hs, hne⟩
      rcases hopen.holds.begun with hnil | ⟨p, hp, hpre, hlt⟩
      · refine ⟨s, hs, ?_⟩
        rw [hnil]
        exact ⟨ List.nil_prefix, length_pos_of_ne_nil fun h => hne (textBytes_eq_nil.1 h)⟩
      · rw [hstops] at hp
        obtain ⟨s', hs', -, rfl⟩ := mem_stopsOf.1 hp
        exact ⟨s', hs', hpre, hlt⟩
    · cases hm.symm.trans h
  · have hm : r.1.matched = true := hclosed.matched
    have hsent : sent = r.2.2 := by
      show r.2.2 ++ r.1.finish.2 = r.2.2
      unfold StopMatcher.finish
      rw [hm]
      exact append_nil _
    obtain ⟨p, hp, hpre⟩ := hclosed.stop
    rw [hstops] at hp
    obtain ⟨s, hs, hne, rfl⟩ := mem_stopsOf.1 hp
    refine ⟨⟨fun _ => ⟨s, hs, hne, ?_⟩, fun _ => hm⟩, fun h => ?_, fun _ => ⟨hclosed.held, ⟨s, hs, hne, ?_⟩, ?_⟩⟩
    · exact (suffix_append r.2.2 _).isInfix.trans hpre.isInfix
    · cases hm.symm.trans h
    · rw [hsent]
      exact hpre
    · rw [hsent]
      exact fun s hs hne => hclosed.none hvalid _ (hmem s hs hne)

/-- Once a stop matched, the tail that is held is not the longest that could begin another. -/
theorem matched_holds_nothing : let r := pushAll (.new ["ab", "bc"]) (["ab"].map textBytes)
    r.1.matched = true ∧ r.1.held = [] ∧ textBytes "b" <:+ r.2.1 ∧ Begun (stopsOf ["ab", "bc"]) (textBytes "b") := by
  refine ⟨by decide, by decide, by decide, textBytes "bc", ?_, ?_, ?_⟩ <;> decide

end Hipfire.Stops

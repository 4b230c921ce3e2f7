import Hipfire.Route.WholeText
/-!
# Chunks — the router against the parse of the whole text

Whatever the chunks, the router stands inside the parse of what it has read: some of the current segment is delivered, the
rest is in the buffer, and the cursor knows the longest beginning of either marker that ends it (`Stands`).  Every call
keeps that, so the calls together deliver what `wholeText` does.
-/
namespace Hipfire.Route

open List
open ToolOutputRouter (visible catchUp)

variable {C : Type}

/-! ## Events without their grouping -/

/-- The bytes and calls of a list of events, in order. -/
def atoms : List (ToolRouteEvent C) → List (UInt8 ⊕ C)
  | [] => []
  | .visibleText text :: es => text.map Sum.inl ++ atoms es
  | .toolCall call :: es => Sum.inr call :: atoms es

/-- Visible text in front of events, merged into a visible text they start with. -/
def prepend (text : List UInt8) (events : List (ToolRouteEvent C)) : List (ToolRouteEvent C) :=
  match text, events with
  | [], es => es
  | text, .visibleText next :: es => .visibleText (text ++ next) :: es
  | text, es => .visibleText text :: es

/-- Adjacent visible texts merged. -/
def merge : List (ToolRouteEvent C) → List (ToolRouteEvent C)
  | [] => []
  | .visibleText text :: es => prepend text (merge es)
  | .toolCall call :: es => .toolCall call :: merge es

def group : List (UInt8 ⊕ C) → List (ToolRouteEvent C)
  | [] => []
  | Sum.inl b :: as => prepend [b] (group as)
  | Sum.inr c :: as => .toolCall c :: group as

theorem prepend_cons (b : UInt8) (text : List UInt8) (es : List (ToolRouteEvent C)) :
    prepend (b :: text) es = prepend [b] (prepend text es) := by
  cases text with
  | nil => rfl
  | cons c text =>
    cases es with
    | nil => rfl
    | cons e es => cases e <;> rfl

theorem group_bytes (text : List UInt8) (as : List (UInt8 ⊕ C)) :
    group (text.map Sum.inl ++ as) = prepend text (group as) := by
  induction text with
  | nil => rfl
  | cons b text ih =>
    rw [prepend_cons, ← ih]
    rfl

theorem merge_eq_group : ∀ es : List (ToolRouteEvent C), merge es = group (atoms es)
  | [] => rfl
  | .visibleText text :: es => by rw [merge, atoms, group_bytes, merge_eq_group es]
  | .toolCall call :: es => by rw [merge, atoms, group, merge_eq_group es]

theorem atoms_append : ∀ es es' : List (ToolRouteEvent C), atoms (es ++ es') = atoms es ++ atoms es'
  | [], _ => rfl
  | .visibleText text :: es, es' => by rw [cons_append, atoms, atoms, atoms_append es es', append_assoc]
  | .toolCall call :: es, es' => by rw [cons_append, atoms, atoms, atoms_append es es']; rfl

@[simp] theorem atoms_visible (text : List UInt8) : atoms (visible text : List (ToolRouteEvent C)) = text.map Sum.inl := by
  unfold visible
  split
  · rename_i h
    rw [h]
    rfl
  · exact append_nil _

variable {text rest span body : List UInt8}

theorem infix_merged : ∀ {es : List (ToolRouteEvent C)}, .visibleText text ∈ es → text ≠ [] →
    ∃ whole, .visibleText whole ∈ merge es ∧ text <:+: whole
  | e :: es, h, hne => by
    rcases mem_cons.1 h with rfl | h
    · rw [merge]
      cases hm : merge es with
      | nil => exact ⟨text, by cases text <;> simp_all [prepend], infix_refl _⟩
      | cons e' es' =>
        cases e' with
        | visibleText next => exact ⟨text ++ next, by cases text <;> simp_all [prepend], (prefix_append ..).isInfix⟩
        | toolCall call => exact ⟨text, by cases text <;> simp_all [prepend], infix_refl _⟩
    · obtain ⟨whole, hmem, hin⟩ := infix_merged h hne
      cases e with
      | toolCall call => exact ⟨whole, mem_cons_of_mem _ hmem, hin⟩
      | visibleText first =>
        rw [merge]
        cases hm : merge es with
        | nil => rw [hm] at hmem; cases hmem
        | cons e' es' =>
          rw [hm] at hmem
          cases first with
          | nil => exact ⟨whole, hmem, hin⟩
          | cons b first =>
            cases e' with
            | toolCall call => exact ⟨whole, mem_cons_of_mem _ hmem, hin⟩
            | visibleText next =>
              rcases mem_cons.1 hmem with heq | hmem
              · cases heq
                exact ⟨(b :: first) ++ whole, mem_cons_self, hin.trans (suffix_append ..).isInfix⟩
              · exact ⟨whole, mem_cons_of_mem _ hmem, hin⟩

/-! ## The parse from inside a text -/

variable (parse : List UInt8 → Option C)

/-- The parse behind an opener. -/
def spanText (span : List UInt8) : List (ToolRouteEvent C) × Option ToolRouteError :=
  match findMarker span with
  | none => ([], some unclosedSpan)
  | some (_, .open, _) => ([], some nestedOpener)
  | some (body, .close, rest) =>
    match parse body with
    | none => ([], some badBody)
    | some call => (.toolCall call :: (wholeText parse rest).1, (wholeText parse rest).2)

theorem wholeText_none (h : findMarker text = none) : wholeText parse text = (visible text, none) := by
  unfold wholeText
  split <;> simp_all

theorem wholeText_close {head : List UInt8} (h : findMarker text = some (head, .close, rest)) :
    wholeText parse text = (visible head, some strayCloser) := by
  unfold wholeText
  split <;> simp_all

theorem wholeText_open {head : List UInt8} (h : findMarker text = some (head, .open, span)) :
    wholeText parse text = (visible head ++ (spanText parse span).1, (spanText parse span).2) := by
  unfold wholeText spanText
  split
  · simp_all
  · simp_all
  · rename_i head' span' h'
    split <;> simp_all
    split <;> simp_all

theorem spanText_none (h : findMarker span = none) : spanText parse span = ([], some unclosedSpan) := by
  unfold spanText
  rw [h]

theorem spanText_open (h : findMarker span = some (body, .open, rest)) :
    spanText parse span = ([], some nestedOpener) := by
  unfold spanText
  rw [h]

theorem spanText_bad (h : findMarker span = some (body, .close, rest)) (hp : parse body = none) :
    spanText parse span = ([], some badBody) := by
  unfold spanText
  rw [h]
  simp only [hp]

theorem spanText_call {call : C} (h : findMarker span = some (body, .close, rest)) (hp : parse body = some call) :
    spanText parse span = (.toolCall call :: (wholeText parse rest).1, (wholeText parse rest).2) := by
  unfold spanText
  rw [h]
  simp only [hp]

/-- What is still to come from a segment, in either state. -/
def fromState (state : RouteState) (segment : List UInt8) : List (UInt8 ⊕ C) × Option ToolRouteError :=
  match state with
  | .normal => (atoms (wholeText parse segment).1, (wholeText parse segment).2)
  | .inToolCall => (atoms (spanText parse segment).1, (spanText parse segment).2)

/-! ## The cursor -/

theorem borderTable_open : BorderTable toolCallOpen openFail := by decide

theorem borderTable_close : BorderTable toolCallClose closeFail := by decide

/-- The cursor behind the segment `seg`, of which the last `n` bytes are in the buffer; no marker lies in it. -/
structure Tracked (seg : List UInt8) (n : Nat) (c : DelimCursor) : Prop where
  opens : Tracks toolCallOpen seg c.openLen
  closes : Tracks toolCallClose seg c.closeLen
  open_le : c.openLen ≤ n
  close_le : c.closeLen ≤ n
  clean : Clean seg

theorem tracked_nil : Tracked [] 0 .reset :=
  ⟨tracks_nil _, tracks_nil _, le_rfl, le_rfl, clean_nil⟩

theorem feed_spec {seg : List UInt8} {n : Nat} {c : DelimCursor} (h : Tracked seg n c) (b : UInt8) :
    (∃ hit, c.feed b = (some hit, .reset) ∧ hit.marker <:+ seg ++ [b] ∧ hit.len ≤ n + 1) ∨
    (∃ c', c.feed b = (none, c') ∧ Tracked (seg ++ [b]) (n + 1) c') := by
  have hopens := advanceKmp_tracks borderTable_open b h.opens
  have hcloses := advanceKmp_tracks borderTable_close b h.closes
  have hopen_le := h.opens.step_le hopens
  have hclose_le := h.closes.step_le hcloses
  have h1 := h.open_le
  have h2 := h.close_le
  unfold DelimCursor.feed
  dsimp only
  split
  · rename_i hc
    refine .inl ⟨.close, rfl, hcloses.complete_iff.1 hc, ?_⟩
    show toolCallClose.length ≤ n + 1
    omega
  · rename_i hc
    split
    · rename_i ho
      refine .inl ⟨.open, rfl, hopens.complete_iff.1 ho, ?_⟩
      show toolCallOpen.length ≤ n + 1
      omega
    · rename_i ho
      refine .inr ⟨_, rfl, hopens, hcloses, Nat.le_trans hopen_le (Nat.succ_le_succ h1),
        Nat.le_trans hclose_le (Nat.succ_le_succ h2), h.clean.concat fun hit hs => ?_⟩
      cases hit
      · exact ho (hopens.complete_iff.2 hs)
      · exact hc (hcloses.complete_iff.2 hs)

/-- **Catching up**: no marker ends in what was fed, or the first one that does was found. -/
theorem catchUp_spec : ∀ (rest : List UInt8) {seg : List UInt8} {n : Nat} {c : DelimCursor}, Tracked seg n c →
    (∃ c', catchUp c n rest = (none, c', n + rest.length) ∧ Tracked (seg ++ rest) (n + rest.length) c') ∨
    (∃ hit a b before last, rest = a ++ b ∧
      catchUp c n rest = (some (hit, n + a.length - hit.len, n + a.length), .reset, n + a.length) ∧
      hit.len ≤ n + a.length ∧ seg ++ a = before ++ [last] ∧ Clean before ∧ hit.marker <:+ seg ++ a)
  | [], seg, n, c, h => .inl ⟨c, rfl, by rwa [append_nil]⟩
  | x :: rest, seg, n, c, h => by
    rcases feed_spec h x with ⟨hit, hfeed, hsuf, hlen⟩ | ⟨c', hfeed, htracked⟩
    · refine .inr ⟨hit, [x], rest, seg, x, rfl, ?_, hlen, rfl, h.clean, hsuf⟩
      unfold catchUp
      rw [hfeed]
      rfl
    · have hstep : catchUp c n (x :: rest) = catchUp c' (n + 1) rest := by
        rw [catchUp, hfeed]
      rw [hstep]
      rcases catchUp_spec rest htracked with ⟨c'', heq, ht⟩ | ⟨hit, a, b, before, last, hrest, heq, hlen, hba, hclean, hsuf⟩
      · refine .inl ⟨c'', ?_, ?_⟩
        · rw [heq, length_cons, Nat.add_right_comm, Nat.add_assoc]
        · rw [append_assoc, singleton_append] at ht
          rwa [length_cons, ← Nat.add_assoc, Nat.add_right_comm]
      · refine .inr ⟨hit, x :: a, b, before, last, by rw [hrest]; rfl, ?_, ?_, ?_, hclean, ?_⟩
        · rw [heq, length_cons, show n + 1 + a.length = n + (a.length + 1) by omega]
        · rw [length_cons]
          omega
        · rw [← hba, append_assoc]
          rfl
        · rw [append_assoc] at hsuf
          exact hsuf

/-! ## Where the router stands -/

/-- The router inside the parse `F` of what is to come: `pre` was delivered before the segment, `emitted` of it. -/
structure Stands (F : List UInt8 → List (UInt8 ⊕ C) × Option ToolRouteError) (r : ToolOutputRouter C)
    (pre : List (UInt8 ⊕ C)) (emitted : List UInt8) : Prop where
  enabled : r.enabled = true
  sound : r.malformed = none
  fed : r.seen ≤ r.buf.length
  tracked : Tracked (emitted ++ r.buf.take r.seen) r.seen r.cursor
  span : r.state = .inToolCall → emitted = []
  rest : ∀ u, F u = (pre ++ (fromState parse r.state (emitted ++ r.buf ++ u)).1, (fromState parse r.state (emitted ++ r.buf ++ u)).2)

/-- The parse failed here: what was delivered is all there is. -/
structure Latched (F : List UInt8 → List (UInt8 ⊕ C) × Option ToolRouteError) (r : ToolOutputRouter C)
    (delivered : List (UInt8 ⊕ C)) (e : ToolRouteError) : Prop where
  enabled : r.enabled = true
  malformed : r.malformed = some e
  rest : ∀ u, F u = (delivered, some e)

/-- A drain has nothing to do. -/
structure Settled (r : ToolOutputRouter C) : Prop where
  all : r.seen = r.buf.length
  held : r.state = .normal → r.buf.length ≤ r.cursor.holdLen

variable {parse} {F : List UInt8 → List (UInt8 ⊕ C) × Option ToolRouteError} {r : ToolOutputRouter C} {pre : List (UInt8 ⊕ C)}
  {emitted : List UInt8}

theorem catchUpDelim_spec (h : Stands parse F r pre emitted) :
    (∃ c', r.catchUpDelim = (none, { r with cursor := c', seen := r.buf.length }) ∧
      Stands parse F { r with cursor := c', seen := r.buf.length } pre emitted) ∨
    (∃ hit stop, r.catchUpDelim = (some (hit, stop - hit.len, stop), { r with cursor := .reset, seen := stop }) ∧
      stop ≤ r.buf.length ∧ 0 < stop ∧
      ∀ u, findMarker (emitted ++ r.buf ++ u) = some (emitted ++ r.buf.take (stop - hit.len), hit, r.buf.drop stop ++ u)) := by
  have hfed := h.fed
  have hsplit := take_append_drop r.seen r.buf
  have hdrop : r.seen + (r.buf.drop r.seen).length = r.buf.length := by rw [length_drop]; omega
  unfold ToolOutputRouter.catchUpDelim
  rcases catchUp_spec (r.buf.drop r.seen) h.tracked with ⟨c', heq, ht⟩ |
    ⟨hit, a, b, before, last, hrest, heq, hlen, hba, hclean, hsuf⟩
  · rw [heq, hdrop]
    refine .inl ⟨c', rfl, h.enabled, h.sound, le_rfl, ?_, h.span, h.rest⟩
    rw [append_assoc, hsplit, hdrop] at ht
    rwa [take_length]
  · rw [heq]
    have hbuf : r.buf = r.buf.take r.seen ++ a ++ b := by rw [append_assoc, ← hrest, hsplit]
    have hlena : (r.buf.take r.seen ++ a).length = r.seen + a.length := by
      rw [length_append, length_take, Nat.min_eq_left hfed]
    have hstop : r.seen + a.length ≤ r.buf.length := by
      rw [← hdrop, hrest, length_append]
      omega
    have htake : r.buf.take (r.seen + a.length) = r.buf.take r.seen ++ a := by
      conv_lhs => rw [hbuf, ← hlena]
      exact take_left
    have hdropb : r.buf.drop (r.seen + a.length) = b := by
      conv_lhs => rw [hbuf, ← hlena]
      exact drop_left
    -- the marker lies in the buffer: what was delivered ends before it starts
    have hmarker : hit.marker <:+ r.buf.take (r.seen + a.length) := by
      refine suffix_of_suffix_length_le hsuf ?_ ?_
      · rw [htake, append_assoc]
        exact suffix_append ..
      · rw [htake, hlena]
        exact hlen
    have hcut : r.buf.take (r.seen + a.length) = r.buf.take (r.seen + a.length - hit.len) ++ hit.marker := by
      obtain ⟨front, hfront⟩ := hmarker
      have hlength : front.length = r.seen + a.length - hit.len := by
        have := congrArg length hfront
        rw [length_append, htake, hlena] at this
        show _ = _ - hit.marker.length
        omega
      rw [← hfront, ← hlength]
      congr 1
      have hpre : front <+: r.buf := (hfront ▸ prefix_append front hit.marker).trans (List.take_prefix _ _)
      exact prefix_iff_eq_take.1 hpre
    refine .inr ⟨hit, r.seen + a.length, rfl, hstop, Nat.lt_of_lt_of_le (Nat.lt_of_lt_of_le (by decide) (eleven_le_len hit)) hlen,
      fun u => ?_⟩
    have hends : before ++ [last] = (emitted ++ r.buf.take (r.seen + a.length - hit.len)) ++ hit.marker := by
      rw [← hba, append_assoc, ← htake, append_assoc, ← hcut]
    have hwhole : r.buf = r.buf.take (r.seen + a.length - hit.len) ++ hit.marker ++ b := by
      rw [← hcut, htake]
      exact hbuf
    rw [hdropb, ← findMarker_of_first (b ++ u) hclean hends]
    conv_lhs => rw [hwhole]
    simp only [append_assoc]

/-! ## One turn of the drain -/

theorem utf8SafeSplit_of_ascii {s : List UInt8} {n : Nat} (hn : n ≤ s.length) (h : n < s.length → s.getD n 0 = 0x3C) :
    utf8SafeSplit s n = n := by
  unfold utf8SafeSplit
  rw [Nat.min_eq_left hn]
  cases n with
  | zero => rfl
  | succ k =>
    rw [utf8SafeSplit.back, if_neg]
    rintro ⟨hlt, hbyte⟩
    rw [h hlt] at hbyte
    exact absurd hbyte (by decide)

/-- The held bytes start with the first byte of a marker. -/
theorem getD_of_held {pat emitted buf : List UInt8} {s : Nat} (hfirst : pat[0]? = some 0x3C) (hends : pat.take s <:+ emitted ++ buf)
    (hs : 0 < s) (hpat : s ≤ pat.length) (hbuf : s ≤ buf.length) : buf.getD (buf.length - s) 0 = 0x3C := by
  have hlen : (pat.take s).length = s := by rw [length_take, Nat.min_eq_left hpat]
  have hsuf : pat.take s <:+ buf := suffix_of_suffix_length_le hends (suffix_append ..) (by omega)
  rw [suffix_iff_eq_drop, hlen] at hsuf
  have hget : (pat.take s)[0]? = some 0x3C := by rw [getElem?_take_of_lt hs, hfirst]
  rw [hsuf, getElem?_drop, Nat.add_zero] at hget
  rw [getD_eq_getElem?_getD, hget]
  rfl

theorem emit_at_hold (ht : Tracked (emitted ++ r.buf) r.buf.length r.cursor) :
    utf8SafeSplit r.buf (r.buf.length - r.cursor.holdLen) = r.buf.length - r.cursor.holdLen := by
  refine utf8SafeSplit_of_ascii (Nat.sub_le _ _) fun hlt => ?_
  unfold DelimCursor.holdLen at hlt ⊢
  rcases Nat.le_total r.cursor.openLen r.cursor.closeLen with hle | hle
  · rw [Nat.max_eq_right hle] at hlt ⊢
    exact getD_of_held rfl ht.closes.ends (by omega) ht.closes.le ht.close_le
  · rw [Nat.max_eq_left hle] at hlt ⊢
    exact getD_of_held rfl ht.opens.ends (by omega) ht.opens.le ht.open_le

/-- What a turn of the drain can do: go on with a shorter buffer, find nothing to do, or latch. -/
inductive Turned (parse : List UInt8 → Option C) (F : List UInt8 → List (UInt8 ⊕ C) × Option ToolRouteError)
    (r : ToolOutputRouter C) (delivered : List (UInt8 ⊕ C)) : Bool × List (ToolRouteEvent C) × ToolOutputRouter C → Prop
  | goes {events : List (ToolRouteEvent C)} {r' : ToolOutputRouter C} (pre' : List (UInt8 ⊕ C)) (emitted' : List UInt8) :
      Stands parse F r' pre' emitted' → pre' ++ emitted'.map Sum.inl = delivered ++ atoms events →
      r'.buf.length < r.buf.length → Turned parse F r delivered (true, events, r')
  | settles {r' : ToolOutputRouter C} {pre' : List (UInt8 ⊕ C)} {emitted' : List UInt8} :
      Stands parse F r' pre' emitted' → pre' ++ emitted'.map Sum.inl = delivered → Settled r' →
      Turned parse F r delivered (false, [], r')
  | latches {events : List (ToolRouteEvent C)} {r' : ToolOutputRouter C} {e : ToolRouteError} :
      Latched F r' (delivered ++ atoms events) e → Turned parse F r delivered (false, events, r')

theorem stepNormal_turned (h : Stands parse F r pre emitted) (hstate : r.state = .normal) :
    Turned parse F r (pre ++ emitted.map Sum.inl) r.stepNormal := by
  have hrest : ∀ u, F u = (pre ++ atoms (wholeText parse (emitted ++ r.buf ++ u)).1,
      (wholeText parse (emitted ++ r.buf ++ u)).2) := by
    intro u
    rw [h.rest u, hstate]
    rfl
  unfold ToolOutputRouter.stepNormal
  rcases catchUpDelim_spec h with ⟨c', heq, hs⟩ | ⟨hit, stop, heq, hstop, hpos, hfind⟩
  · rw [heq]
    dsimp only
    have htracked := hs.tracked
    rw [take_length] at htracked
    rw [emit_at_hold (r := { r with cursor := c', seen := r.buf.length }) htracked]
    dsimp only
    split
    · rename_i hcond
      have hopen : c'.openLen ≤ c'.holdLen := Nat.le_max_left ..
      have hclose : c'.closeLen ≤ c'.holdLen := Nat.le_max_right ..
      generalize hcut : r.buf.length - c'.holdLen = cut at hcond ⊢
      have htail : (r.buf.drop cut).take (r.buf.length - cut) = r.buf.drop cut :=
        take_of_length_le (by rw [length_drop])
      refine .goes pre (emitted ++ r.buf.take cut) ⟨h.enabled, h.sound, ?_, ?_, fun hspan => ?_, fun u => ?_⟩ ?_ ?_
      · show r.buf.length - cut ≤ (r.buf.drop cut).length
        rw [length_drop]
      · show Tracked (emitted ++ r.buf.take cut ++ (r.buf.drop cut).take (r.buf.length - cut)) (r.buf.length - cut) c'
        rw [htail, append_assoc, take_append_drop]
        exact ⟨htracked.opens, htracked.closes, by omega, by omega, htracked.clean⟩
      · exact absurd (hstate.symm.trans hspan) (by decide)
      · show F u = (pre ++ (fromState parse r.state (emitted ++ r.buf.take _ ++ r.buf.drop _ ++ u)).1, _)
        rw [append_assoc emitted, take_append_drop]
        exact h.rest u
      · rw [atoms_visible, map_append, append_assoc]
      · show (r.buf.drop cut).length < r.buf.length
        rw [length_drop]
        omega
    · refine .settles hs rfl ⟨rfl, fun _ => ?_⟩
      show r.buf.length ≤ c'.holdLen
      omega
  · rw [heq]
    cases hit with
    | close =>
      refine .latches (e := strayCloser) ⟨h.enabled, rfl, fun u => ?_⟩
      rw [hrest, wholeText_close parse (hfind u)]
      simp
    | «open» =>
      refine .goes (pre ++ (emitted ++ r.buf.take (stop - DelimHit.open.len)).map Sum.inl) []
        ⟨h.enabled, h.sound, Nat.zero_le _, tracked_nil, fun _ => rfl, fun u => ?_⟩ ?_ ?_
      · rw [hrest, wholeText_open parse (hfind u), atoms_append, atoms_visible]
        simp [fromState, ToolOutputRouter.consumeThrough]
      · simp
      · show (r.buf.drop stop).length < r.buf.length
        rw [length_drop]
        omega

theorem stepInToolCall_turned (h : Stands parse F r pre emitted) (hstate : r.state = .inToolCall) :
    Turned parse F r (pre ++ emitted.map Sum.inl) (r.stepInToolCall parse) := by
  obtain rfl := h.span hstate
  have hrest : ∀ u, F u = (pre ++ atoms (spanText parse (r.buf ++ u)).1, (spanText parse (r.buf ++ u)).2) := by
    intro u
    rw [h.rest u, hstate]
    rfl
  unfold ToolOutputRouter.stepInToolCall
  rcases catchUpDelim_spec h with ⟨c', heq, hs⟩ | ⟨hit, stop, heq, hstop, hpos, hfind⟩
  · rw [heq]
    refine .settles hs rfl ⟨rfl, fun hnormal => ?_⟩
    exact absurd (hstate.symm.trans hnormal) (by decide)
  · rw [heq]
    simp only [nil_append] at hfind
    cases hit with
    | «open» =>
      refine .latches (e := nestedOpener) ⟨h.enabled, rfl, fun u => ?_⟩
      rw [hrest, spanText_open parse (hfind u)]
      simp [atoms]
    | close =>
      dsimp only
      cases hp : parse (r.buf.take (stop - DelimHit.close.len)) with
      | none =>
        refine .latches (e := badBody) ⟨h.enabled, rfl, fun u => ?_⟩
        rw [hrest, spanText_bad parse (hfind u) hp]
        simp [atoms]
      | some call =>
        refine .goes (pre ++ [Sum.inr call]) [] ⟨h.enabled, h.sound, Nat.zero_le _, tracked_nil,
          fun _ => rfl, fun u => ?_⟩ ?_ ?_
        · rw [hrest, spanText_call parse (hfind u) hp]
          simp [fromState, atoms, ToolOutputRouter.consumeThrough]
        · simp [atoms]
        · show (r.buf.drop stop).length < r.buf.length
          rw [length_drop]
          omega

theorem step_turned (h : Stands parse F r pre emitted) : Turned parse F r (pre ++ emitted.map Sum.inl) (r.step parse) := by
  unfold ToolOutputRouter.step
  cases hstate : r.state with
  | normal => exact stepNormal_turned h hstate
  | inToolCall => exact stepInToolCall_turned h hstate

/-! ## Calls -/

/-- **A drain** ends settled in the parse, or latched at its failure, with everything before it collected. -/
theorem drainLoop_spec : ∀ {fuel : Nat} {r : ToolOutputRouter C} {pre : List (UInt8 ⊕ C)} {emitted : List UInt8},
    Stands parse F r pre emitted → r.buf.length < fuel →
    (∃ pre' emitted', Stands parse F (r.drainLoop parse fuel).2 pre' emitted' ∧ Settled (r.drainLoop parse fuel).2 ∧
      pre' ++ emitted'.map Sum.inl = pre ++ emitted.map Sum.inl ++ atoms (r.drainLoop parse fuel).1) ∨
    (∃ e, Latched F (r.drainLoop parse fuel).2 (pre ++ emitted.map Sum.inl ++ atoms (r.drainLoop parse fuel).1) e)
  | fuel + 1, r, pre, emitted, h, hfuel => by
    have hturn := step_turned h
    unfold ToolOutputRouter.drainLoop
    rw [if_neg (by rw [h.sound]; exact Bool.false_ne_true)]
    cases hstep : r.step parse with
    | mk go out =>
      obtain ⟨events, r'⟩ := out
      rw [hstep] at hturn
      cases hturn with
      | goes pre' emitted' hs hout hlt =>
        rcases drainLoop_spec hs (show r'.buf.length < fuel by omega) with ⟨p, m, hs', hset, heq⟩ | ⟨e, hl⟩
        · exact .inl ⟨p, m, hs', hset, by rw [heq, hout, atoms_append, append_assoc]⟩
        · rw [hout, append_assoc, ← atoms_append] at hl
          exact .inr ⟨e, hl⟩
      | settles hs hout hset => exact .inl ⟨_, _, hs, hset, by rw [hout, atoms, append_nil]⟩
      | latches hl => exact .inr ⟨_, hl⟩

/-- What a call can return: events with the router settled or latched, or the latched error with no event lost. -/
inductive Called (parse : List UInt8 → Option C) (F : List UInt8 → List (UInt8 ⊕ C) × Option ToolRouteError)
    (delivered : List (UInt8 ⊕ C)) : Except ToolRouteError (List (ToolRouteEvent C)) × ToolOutputRouter C → Prop
  | settled {events : List (ToolRouteEvent C)} {r : ToolOutputRouter C} (pre : List (UInt8 ⊕ C)) (emitted : List UInt8) :
      Stands parse F r pre emitted → Settled r → pre ++ emitted.map Sum.inl = delivered ++ atoms events →
      Called parse F delivered (.ok events, r)
  | latched {events : List (ToolRouteEvent C)} {r : ToolOutputRouter C} {e : ToolRouteError} :
      Latched F r (delivered ++ atoms events) e → Called parse F delivered (.ok events, r)
  | failed {r : ToolOutputRouter C} {e : ToolRouteError} : Latched F r delivered e → Called parse F delivered (.error e, r)

theorem drain_called (h : Stands parse F r pre emitted) : Called parse F (pre ++ emitted.map Sum.inl) (r.drain parse) := by
  have hloop := drainLoop_spec h (Nat.lt_succ_self _)
  unfold ToolOutputRouter.drain
  generalize r.drainLoop parse (r.buf.length + 1) = out at hloop ⊢
  obtain ⟨events, r'⟩ := out
  rcases hloop with ⟨pre', emitted', hs, hset, hout⟩ | ⟨e, hl⟩
  · dsimp only
    rw [hs.sound]
    exact .settled pre' emitted' hs hset hout
  · dsimp only at hl ⊢
    rw [hl.malformed]
    dsimp only
    split
    · rename_i hempty
      rw [List.isEmpty_iff] at hempty
      subst hempty
      rw [atoms, append_nil] at hl
      exact .failed hl
    · exact .latched hl

theorem push_called (h : Stands parse F r pre emitted) (hset : Settled r) (chunk : List UInt8) :
    Called parse (fun u => F (chunk ++ u)) (pre ++ emitted.map Sum.inl) (r.push parse chunk) := by
  have hpush : r.push parse chunk = if chunk = [] then (.ok [], r) else { r with buf := r.buf ++ chunk }.drain parse := by
    unfold ToolOutputRouter.push
    rw [if_neg (by rw [h.enabled]; exact Bool.false_ne_true)]
    split
    · rename_i e he
      cases h.sound.symm.trans he
    · rfl
  rw [hpush]
  split
  · rename_i hchunk
    subst hchunk
    exact .settled pre emitted h hset (by rw [atoms, append_nil])
  · refine drain_called ⟨h.enabled, h.sound, ?_, ?_, h.span, fun u => ?_⟩
    · show r.seen ≤ (r.buf ++ chunk).length
      rw [length_append, hset.all]
      exact Nat.le_add_right _ _
    · show Tracked (emitted ++ (r.buf ++ chunk).take r.seen) r.seen r.cursor
      rw [take_append_of_le_length h.fed]
      exact h.tracked
    · show F (chunk ++ u) = (pre ++ (fromState parse r.state (emitted ++ (r.buf ++ chunk) ++ u)).1, _)
      rw [h.rest (chunk ++ u)]
      simp only [append_assoc]

theorem drain_of_settled (h : Stands parse F r pre emitted) (hset : Settled r) : r.drain parse = (.ok [], r) := by
  have hcatch : r.catchUpDelim = (none, r) := by
    unfold ToolOutputRouter.catchUpDelim
    rw [hset.all, drop_length, catchUp, ← hset.all]
  have hstep : r.step parse = (false, [], r) := by
    unfold ToolOutputRouter.step
    cases hstate : r.state with
    | normal =>
      have := hset.held hstate
      unfold ToolOutputRouter.stepNormal
      rw [hcatch]
      dsimp only
      rw [if_neg (by omega)]
    | inToolCall =>
      unfold ToolOutputRouter.stepInToolCall
      rw [hcatch]
  have hloop : r.drainLoop parse (r.buf.length + 1) = ([], r) := by
    unfold ToolOutputRouter.drainLoop
    rw [if_neg (by rw [h.sound]; exact Bool.false_ne_true), hstep]
  unfold ToolOutputRouter.drain
  rw [hloop]
  dsimp only
  rw [h.sound]

/-- **The end of the text.** -/
theorem finish_spec (h : Stands parse F r pre emitted) (hset : Settled r) :
    (∃ events, r.finish parse = .ok events ∧ F [] = (pre ++ emitted.map Sum.inl ++ atoms events, none)) ∨
    (∃ e, r.finish parse = .error e ∧ F [] = (pre ++ emitted.map Sum.inl, some e)) := by
  have hclean := h.tracked.clean
  rw [hset.all, take_length] at hclean
  have hnone : findMarker (emitted ++ r.buf) = none := by
    cases hf : findMarker (emitted ++ r.buf) with
    | none => rfl
    | some found =>
      obtain ⟨head, hit, rest⟩ := found
      have heq := (findMarker_some hf).1
      refine absurd ?_ (hclean hit)
      rw [heq]
      exact ⟨head, rest, rfl⟩
  have hrest := h.rest []
  rw [append_nil] at hrest
  unfold ToolOutputRouter.finish
  rw [h.enabled, h.sound, drain_of_settled h hset]
  simp only [Bool.not_true, Bool.false_eq_true, if_false]
  cases hstate : r.state with
  | normal =>
    rw [hrest, hstate, fromState, wholeText_none parse hnone]
    simp
  | inToolCall =>
    obtain rfl := h.span hstate
    rw [hrest, hstate, fromState, spanText_none parse hnone]
    simp [atoms]

/-! ## Runs -/

variable {e : ToolRouteError}

/-- Behind a failure every call returns the same error. -/
theorem results_latched : ∀ (chunks : List (List UInt8)) {r : ToolOutputRouter C} {out : List (UInt8 ⊕ C)},
    Latched F r out e → r.results parse chunks = replicate (chunks.length + 1) (.error e)
  | [], r, out, h => by
    unfold ToolOutputRouter.results ToolOutputRouter.finish
    rw [if_neg (by rw [h.enabled]; exact Bool.false_ne_true), h.malformed]
    rfl
  | chunk :: chunks, r, out, h => by
    have hpush : r.push parse chunk = (.error e, r) := by
      unfold ToolOutputRouter.push
      rw [if_neg (by rw [h.enabled]; exact Bool.false_ne_true), h.malformed]
    rw [ToolOutputRouter.results, hpush]
    rw [results_latched chunks h]
    rfl

/-- What the calls return against the parse: the events are its events, the first error is its failure, and behind an
error there are only errors. -/
structure Agrees (F : List (UInt8 ⊕ C) × Option ToolRouteError) (out : List (UInt8 ⊕ C))
    (rs : List (Except ToolRouteError (List (ToolRouteEvent C)))) : Prop where
  events : F.1 = out ++ atoms (delivered rs)
  failure : F.2 = failure rs
  after : ∀ a e b, rs = a ++ .error e :: b → ∀ res ∈ b, res = .error e

variable {out : List (UInt8 ⊕ C)} {F : List (UInt8 ⊕ C) × Option ToolRouteError}

theorem agrees_replicate {n : Nat} (h : F = (out, some e)) : Agrees F out (replicate (n + 1) (.error e)) := by
  refine ⟨?_, ?_, fun a e' b heq res hres => ?_⟩
  · rw [h, replicate_succ, delivered, atoms, append_nil]
  · rw [h]
    rfl
  · have hall : ∀ x ∈ a ++ Except.error e' :: b, x = Except.error e := by
      rw [← heq]
      exact fun x hx => (mem_replicate.1 hx).2
    have he' : (Except.error e' : Except ToolRouteError (List (ToolRouteEvent C))) = .error e := hall _ (by simp)
    rw [he']
    exact hall res (by simp [hres])

theorem Agrees.cons {events : List (ToolRouteEvent C)}
    {rs : List (Except ToolRouteError (List (ToolRouteEvent C)))} (h : Agrees F (out ++ atoms events) rs) :
    Agrees F out (.ok events :: rs) := by
  refine ⟨?_, h.failure, fun a e b heq res hres => ?_⟩
  · rw [h.events, delivered, atoms_append, append_assoc]
  · cases a with
    | nil => cases heq
    | cons x a => exact h.after a e b (cons.inj heq).2 res hres

theorem results_agree : ∀ (chunks : List (List UInt8)) {F : List UInt8 → List (UInt8 ⊕ C) × Option ToolRouteError}
    {r : ToolOutputRouter C} {pre : List (UInt8 ⊕ C)} {emitted : List UInt8}, Stands parse F r pre emitted → Settled r →
    Agrees (F chunks.flatten) (pre ++ emitted.map Sum.inl) (r.results parse chunks)
  | [], F, r, pre, emitted, h, hset => by
    rw [ToolOutputRouter.results, flatten_nil]
    rcases finish_spec h hset with ⟨events, hfin, hF⟩ | ⟨e, hfin, hF⟩
    · rw [hfin, hF]
      exact Agrees.cons ⟨by rw [delivered, atoms, append_nil], rfl, fun a e b heq => absurd heq (by simp)⟩
    · rw [hfin]
      exact agrees_replicate (n := 0) hF
  | chunk :: chunks, F, r, pre, emitted, h, hset => by
    have hcall := push_called h hset chunk
    rw [ToolOutputRouter.results, flatten_cons]
    generalize r.push parse chunk = out at hcall ⊢
    cases hcall with
    | settled pre' emitted' hs hset' hout =>
      have ih := results_agree chunks hs hset'
      rw [hout] at ih
      exact ih.cons
    | latched hl =>
      rw [results_latched chunks hl]
      exact (agrees_replicate (hl.rest _)).cons
    | @failed r' e hl =>
      rw [results_latched chunks hl]
      exact agrees_replicate (n := chunks.length + 1) (hl.rest _)

theorem stands_new : Stands parse (fun u => (atoms (wholeText parse u).1, (wholeText parse u).2)) .new [] [] :=
  ⟨rfl, rfl, le_rfl, tracked_nil, fun _ => rfl, fun _ => rfl⟩

theorem settled_new : Settled (.new : ToolOutputRouter C) := ⟨rfl, fun _ => le_rfl⟩

/-! ## The text as a whole -/

/-- Clean text in front of events that start with a call, or of none. -/
theorem visible_append {es : List (ToolRouteEvent C)} (hclean : Clean text)
    (hform : es = [] ∨ ∃ call es', es = .toolCall call :: es') (hmerge : merge es = es)
    (hshown : ∀ shown, .visibleText shown ∈ es → Clean shown) :
    merge (visible text ++ es) = visible text ++ es ∧ ∀ shown, .visibleText shown ∈ visible text ++ es → Clean shown := by
  unfold visible
  split
  · exact ⟨hmerge, hshown⟩
  rename_i hne
  refine ⟨?_, fun shown hmem => ?_⟩
  · rw [singleton_append, merge, hmerge]
    obtain ⟨b, t, rfl⟩ := exists_cons_of_ne_nil hne
    rcases hform with rfl | ⟨call, es', rfl⟩ <;> rfl
  · rcases mem_append.1 hmem with hmem | hmem
    · rw [mem_singleton] at hmem
      cases hmem
      exact hclean
    · exact hshown shown hmem

theorem visible_alone (hclean : Clean text) : merge (visible text : List (ToolRouteEvent C)) = visible text ∧
    ∀ shown, .visibleText shown ∈ (visible text : List (ToolRouteEvent C)) → Clean shown := by
  have h := visible_append (C := C) hclean (.inl rfl) rfl (fun shown h => by cases h)
  rwa [append_nil] at h

variable (parse) in
/-- The parse of a whole text shows no marker and has nothing left to merge. -/
theorem wholeText_spec (text : List UInt8) : merge (wholeText parse text).1 = (wholeText parse text).1 ∧
    ∀ shown, .visibleText shown ∈ (wholeText parse text).1 → Clean shown := by
  induction text using wholeText.induct parse with
  | case1 text h =>
    rw [wholeText_none parse h]
    exact visible_alone (findMarker_none h)
  | case2 text head rest h =>
    rw [wholeText_close parse h]
    exact visible_alone (findMarker_some h).2
  | case3 text head span h hs =>
    rw [wholeText_open parse h, spanText_none parse hs, append_nil]
    exact visible_alone (findMarker_some h).2
  | case4 text head span h body rest hs =>
    rw [wholeText_open parse h, spanText_open parse hs, append_nil]
    exact visible_alone (findMarker_some h).2
  | case5 text head span h body rest hs hp =>
    rw [wholeText_open parse h, spanText_bad parse hs hp, append_nil]
    exact visible_alone (findMarker_some h).2
  | case6 text head span h body rest hs call hp ih =>
    rw [wholeText_open parse h, spanText_call parse hs hp]
    refine visible_append (findMarker_some h).2 (.inr ⟨call, _, rfl⟩) (by rw [merge, ih.1]) fun shown hmem => ?_
    rcases mem_cons.1 hmem with heq | hmem
    · cases heq
    · exact ih.2 shown hmem

/-- **The router is a parse of the whole text.**  However the text is cut into chunks, the events up to the first error,
adjacent visible texts merged, and the first error are those of `wholeText`; behind an error every call returns that error;
and no visible text contains a reserved marker. -/
theorem router_is_whole_text_parse {J : Type} (json : SerdeJson J) (chunks : List (List UInt8)) :
    merge (delivered (ToolOutputRouter.new.results (strictGrammar json) chunks)) =
      (wholeText (strictGrammar json) chunks.flatten).1 ∧
    failure (ToolOutputRouter.new.results (strictGrammar json) chunks) =
      (wholeText (strictGrammar json) chunks.flatten).2 ∧
    (∀ a e b, ToolOutputRouter.new.results (strictGrammar json) chunks = a ++ .error e :: b → ∀ res ∈ b, res = .error e) ∧
    ∀ text, .visibleText text ∈ delivered (ToolOutputRouter.new.results (strictGrammar json) chunks) →
      ∀ hit : DelimHit, ¬hit.marker <:+: text := by
  have hagree := results_agree chunks (@stands_new _ (strictGrammar json)) settled_new
  obtain ⟨hmerged, hclean⟩ := wholeText_spec (strictGrammar json) chunks.flatten
  have hevents : merge (delivered (ToolOutputRouter.new.results (strictGrammar json) chunks)) =
      (wholeText (strictGrammar json) chunks.flatten).1 := by
    rw [← hmerged, merge_eq_group, merge_eq_group]
    exact congrArg group hagree.events.symm
  refine ⟨hevents, hagree.failure.symm, hagree.after, fun text htext => ?_⟩
  by_cases hne : text = []
  · rw [hne]
    exact clean_nil
  · obtain ⟨whole, hmem, hin⟩ := infix_merged htext hne
    rw [hevents] at hmem
    exact (hclean whole hmem).mono hin

end Hipfire.Route

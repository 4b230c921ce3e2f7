import Hipfire.Route.Chunks
/-!
# Joined — markers assembled across a removed call

No visible text holds a marker, but a client reads the visible texts one behind the other, and a complete call between two
of them is taken out.  `Joined` says when a marker appears in that way: it starts in the prose before a call and ends in the
prose behind it, with complete calls between.
-/
namespace Hipfire.Route

open List
open ToolOutputRouter (visible)

variable {C : Type}

/-- What a client reads. -/
def shown : List (ToolRouteEvent C) → List UInt8
  | [] => []
  | .visibleText text :: es => text ++ shown es
  | .toolCall _ :: es => shown es

theorem shown_eq_atoms : ∀ es : List (ToolRouteEvent C), shown es = (atoms es).filterMap Sum.getLeft?
  | [] => rfl
  | .visibleText text :: es => by
    rw [shown, atoms, filterMap_append, filterMap_map, shown_eq_atoms es]
    simp [Function.comp_def]
  | .toolCall call :: es => by
    rw [shown, atoms, shown_eq_atoms es]
    rfl

theorem shown_visible_append (text : List UInt8) (es : List (ToolRouteEvent C)) :
    shown (visible text ++ es) = text ++ shown es := by
  unfold visible
  split
  · rename_i h
    rw [h]
    rfl
  · rfl

/-- Prose and a call behind it, given by its body, again and again. -/
def callsText : List (List UInt8 × List UInt8) → List UInt8
  | [] => []
  | (prose, body) :: rest => prose ++ toolCallOpen ++ (body ++ toolCallClose ++ callsText rest)

/-- The calls are complete and no marker lies in the prose between them. -/
def Complete (parse : List UInt8 → Option C) (calls : List (List UInt8 × List UInt8)) : Prop :=
  ∀ call ∈ calls, Clean call.1 ∧ Clean call.2 ∧ (parse call.2).isSome = true

variable {parse : List UInt8 → Option C} {prose body : List UInt8} {calls : List (List UInt8 × List UInt8)}

theorem callsText_cons_append (rest : List UInt8) : callsText ((prose, body) :: calls) ++ rest =
    prose ++ toolCallOpen ++ (body ++ toolCallClose ++ (callsText calls ++ rest)) := by
  simp only [callsText, append_assoc]

theorem complete_cons : Complete parse ((prose, body) :: calls) ↔
    (Clean prose ∧ Clean body ∧ (parse body).isSome = true) ∧ Complete parse calls := forall_mem_cons

/-- A marker starts at the end of the prose before a complete call and ends with the prose behind it. -/
def Joined (parse : List UInt8 → Option C) (text : List UInt8) : Prop :=
  ∃ (hit : DelimHit) (before between : List (List UInt8 × List UInt8)) (head start body stop rest : List UInt8),
    Complete parse (before ++ (head ++ start, body) :: between) ∧
    text = callsText (before ++ (head ++ start, body) :: between) ++ (stop ++ rest) ∧
    start ≠ [] ∧ stop ≠ [] ∧ hit.marker = start ++ between.flatMap Prod.fst ++ stop

/-! ## Markers start with the only `<` they have -/

theorem bracket_not_mem_tail (hit : DelimHit) : (0x3C : UInt8) ∉ hit.marker.tail := by cases hit <;> decide

theorem marker_eq_cons (hit : DelimHit) : hit.marker = 0x3C :: hit.marker.tail := by cases hit <;> rfl

variable {head : List UInt8}

/-- No marker ends inside the first marker behind clean text. -/
theorem Clean.append_dropLast (h : Clean head) (hit : DelimHit) : Clean (head ++ hit.marker.dropLast) := by
  intro other hi
  have hinside : ¬other.marker <:+: hit.marker.dropLast := by cases other <;> cases hit <;> decide
  rcases infix_append_iff.1 hi with hi | hi | ⟨l₁, l₂, heq, h₁, h₂⟩
  · exact h other hi
  · exact hinside hi
  · cases l₂ with
    | nil => exact h other (by rw [heq, append_nil]; exact h₁.isInfix)
    | cons b l₂ =>
      cases l₁ with
      | nil => exact hinside (by rw [heq]; exact h₂.isInfix)
      | cons c l₁ =>
        have hb : b = 0x3C := by
          cases hit <;> exact (cons_prefix_cons.1 h₂).1
        refine bracket_not_mem_tail other ?_
        rw [heq, hb]
        simp

theorem findMarker_behind (h : Clean head) (hit : DelimHit) (rest : List UInt8) :
    findMarker (head ++ hit.marker ++ rest) = some (head, hit, rest) := by
  refine @findMarker_of_first hit rest _ _ 0x3E (h.append_dropLast hit) ?_
  rw [append_assoc]
  cases hit <;> rfl

variable {hit : DelimHit} {text rest : List UInt8}

/-- What lies before the first marker is shown. -/
theorem head_prefix_shown (h : findMarker text = some (head, hit, rest)) : head <+: shown (wholeText parse text).1 := by
  cases hit with
  | close =>
    rw [wholeText_close parse h, ← append_nil (visible head), shown_visible_append]
    exact prefix_append ..
  | «open» =>
    rw [wholeText_open parse h, shown_visible_append]
    exact prefix_append ..

theorem prefix_shown (parse : List UInt8 → Option C) {stop : List UInt8} (rest : List UInt8) (h : (0x3C : UInt8) ∉ stop) :
    stop <+: shown (wholeText parse (stop ++ rest)).1 := by
  cases hf : findMarker (stop ++ rest) with
  | none =>
    rw [wholeText_none parse hf, ← append_nil (visible _), shown_visible_append, append_assoc]
    exact prefix_append ..
  | some found =>
    obtain ⟨head, hit, rest'⟩ := found
    refine IsPrefix.trans ?_ (head_prefix_shown hf)
    have heq := (findMarker_some hf).1
    rw [marker_eq_cons, append_assoc, append_eq_append_iff] at heq
    rcases heq with ⟨more, rfl, _⟩ | ⟨more, rfl, hmore⟩
    · exact prefix_append ..
    cases more with
    | nil => simp
    | cons b more =>
      have hb := (cons.inj hmore).1
      exact absurd (by rw [hb]; simp) h

/-- **Complete calls are taken out and the prose between them is shown.** -/
theorem shown_callsText (rest : List UInt8) : ∀ {calls : List (List UInt8 × List UInt8)}, Complete parse calls →
      shown (wholeText parse (callsText calls ++ rest)).1 = calls.flatMap Prod.fst ++ shown (wholeText parse rest).1
  | [], _ => rfl
  | (prose, body) :: calls, h => by
    obtain ⟨⟨hprose, hbody, hparse⟩, hcalls⟩ := complete_cons.1 h
    obtain ⟨call, hcall⟩ := Option.isSome_iff_exists.1 hparse
    have hopen := findMarker_behind hprose .open (body ++ toolCallClose ++ (callsText calls ++ rest))
    have hclose := findMarker_behind hbody .close (callsText calls ++ rest)
    rw [callsText_cons_append]
    erw [wholeText_open parse hopen, spanText_call parse hclose hcall]
    rw [shown_visible_append, shown, shown_callsText rest hcalls, flatMap_cons, append_assoc]

/-- The text is complete calls, then prose, then what is not shown. -/
def Cut (parse : List UInt8 → Option C) (text : List UInt8) : Prop :=
  ∃ calls tail rest, Complete parse calls ∧ Clean tail ∧ text = callsText calls ++ (tail ++ rest) ∧
    shown (wholeText parse text).1 = calls.flatMap Prod.fst ++ tail

theorem cut_last (hclean : Clean head) (htext : text = head ++ rest)
    (hshown : (wholeText parse text).1 = visible head) : Cut parse text := by
  refine ⟨[], head, rest, nofun, hclean, htext, ?_⟩
  rw [hshown, ← append_nil (visible head), shown_visible_append]
  simp [shown]

theorem cut (parse : List UInt8 → Option C) (text : List UInt8) : Cut parse text := by
  cases hf : findMarker text with
  | none => exact cut_last (findMarker_none hf) (append_nil text).symm (by rw [wholeText_none parse hf])
  | some found =>
    obtain ⟨head, hit, span⟩ := found
    obtain ⟨htext, hclean⟩ := findMarker_some hf
    rw [append_assoc] at htext
    cases hit with
    | close => exact cut_last hclean htext (by rw [wholeText_close parse hf])
    | «open» =>
      have hwhole := wholeText_open parse hf
      cases hs : findMarker span with
      | none => exact cut_last hclean htext (by rw [hwhole, spanText_none parse hs, append_nil])
      | some found' =>
        obtain ⟨body, hit', rest⟩ := found'
        cases hit' with
        | «open» => exact cut_last hclean htext (by rw [hwhole, spanText_open parse hs, append_nil])
        | close =>
          cases hp : parse body with
          | none => exact cut_last hclean htext (by rw [hwhole, spanText_bad parse hs hp, append_nil])
          | some call =>
            obtain ⟨hspan, hbody⟩ := findMarker_some hs
            have hshort : rest.length < text.length := by
              rw [htext, hspan]
              simp only [length_append]
              have := eleven_le_len .open
              omega
            obtain ⟨calls, tail, rest', hcalls, htail, hrest, hshown⟩ := cut parse rest
            have hfirst := complete_cons.2 ⟨⟨hclean, hbody, Option.isSome_iff_exists.2 ⟨call, hp⟩⟩, hcalls⟩
            refine ⟨(head, body) :: calls, tail, rest', hfirst, htail, ?_, ?_⟩
            · rw [htext, hspan, callsText_cons_append, ← hrest, ← append_assoc head]
              rfl
            · rw [hwhole, spanText_call parse hs hp, shown_visible_append, shown, hshown, flatMap_cons,
                append_assoc]
termination_by text.length

/-! ## Where a marker lies in the prose -/

/-- A beginning of the prose ends in the prose behind some of the calls. -/
theorem prefix_cut {tail : List UInt8} : ∀ (calls : List (List UInt8 × List UInt8)) {w : List UInt8}, w ≠ [] →
    w <+: calls.flatMap Prod.fst ++ tail →
    ∃ between after stop rest, calls = between ++ after ∧ stop ≠ [] ∧ w = between.flatMap Prod.fst ++ stop ∧
      callsText calls ++ tail = callsText between ++ (stop ++ rest)
  | [], w, hw, ⟨rest, h⟩ => ⟨[], [], w, rest, rfl, hw, rfl, h.symm⟩
  | (prose, body) :: calls, w, hw, h => by
    rw [flatMap_cons, append_assoc] at h
    rcases List.prefix_or_prefix_of_prefix h (prefix_append prose _) with ⟨more, hp⟩ | ⟨w', rfl⟩
    · refine ⟨[], _, w, more ++ toolCallOpen ++ (body ++ toolCallClose ++ (callsText calls ++ tail)), rfl, hw, rfl, ?_⟩
      rw [callsText_cons_append, ← hp]
      simp only [callsText, append_assoc, nil_append]
    · by_cases hw' : w' = []
      · subst hw'
        refine ⟨[], _, prose, toolCallOpen ++ (body ++ toolCallClose ++ (callsText calls ++ tail)), rfl, ?_, ?_, ?_⟩
        · simpa using hw
        · simp
        · rw [callsText_cons_append, append_assoc]
          rfl
      · obtain ⟨between, after, stop, rest, rfl, hstop, rfl, htext⟩ :=
          prefix_cut calls hw' ((prefix_append_right_inj prose).1 h)
        refine ⟨(prose, body) :: between, after, stop, rest, rfl, hstop, by simp, ?_⟩
        rw [callsText_cons_append, callsText_cons_append, htext]

/-- **A marker in the shown prose starts before a call and ends behind it.** -/
theorem joined_of_infix {tail : List UInt8} (htail : Clean tail) :
    ∀ {calls : List (List UInt8 × List UInt8)} (rest : List UInt8), Complete parse calls →
      hit.marker <:+: calls.flatMap Prod.fst ++ tail → Joined parse (callsText calls ++ (tail ++ rest))
  | [], _, _, h => absurd h (htail hit)
  | (prose, body) :: calls, rest, hc, h => by
    obtain ⟨⟨hprose, hbody⟩, hc'⟩ := complete_cons.1 hc
    have hlater : hit.marker <:+: calls.flatMap Prod.fst ++ tail →
        Joined parse (callsText ((prose, body) :: calls) ++ (tail ++ rest)) := by
      intro hi
      obtain ⟨hit', before, between, head, start, body', stop, rest', hall, htext, hstart, hstop, hm⟩ :=
        joined_of_infix htail rest hc' hi
      refine ⟨hit', (prose, body) :: before, between, head, start, body', stop, rest',
        complete_cons.2 ⟨⟨hprose, hbody⟩, hall⟩, ?_, hstart, hstop, hm⟩
      rw [cons_append, callsText_cons_append, callsText_cons_append, htext]
    rw [flatMap_cons, append_assoc] at h
    rcases infix_append_iff.1 h with h | h | ⟨start, w, heq, ⟨head, hhead⟩, hw⟩
    · exact absurd h (hprose hit)
    · exact hlater h
    · by_cases hstart : start = []
      · rw [hstart, nil_append] at heq
        exact hlater (heq ▸ hw.isInfix)
      by_cases hne : w = []
      · rw [hne, append_nil] at heq
        exact absurd (heq ▸ IsSuffix.isInfix ⟨head, hhead⟩) (hprose hit)
      obtain ⟨between, after, stop, rest', rfl, hstop, rfl, htext⟩ := prefix_cut calls hne hw
      subst hhead
      rw [← append_assoc] at heq
      refine ⟨hit, [], between, head, start, body, stop, rest' ++ rest, ?_, ?_, hstart, hstop, heq⟩
      · exact complete_cons.2 ⟨⟨hprose, hbody⟩, fun c hmem => hc' c (mem_append_left _ hmem)⟩
      · rw [nil_append, callsText_cons_append, callsText_cons_append, ← append_assoc _ tail, htext]
        simp only [append_assoc]

theorem shown_of_joined (h : Joined parse text) : ¬Clean (shown (wholeText parse text).1) := by
  obtain ⟨hit, before, between, head, start, body, stop, rest, hc, rfl, hstart, _, hm⟩ := h
  intro hclean
  have hbracket : (0x3C : UInt8) ∉ stop := by
    intro hmem
    refine bracket_not_mem_tail hit ?_
    rw [hm]
    cases start with
    | nil => exact absurd rfl hstart
    | cons b start => simp [hmem]
  obtain ⟨more, hmore⟩ := prefix_shown parse rest hbracket
  refine hclean hit ?_
  rw [shown_callsText _ hc, ← hmore, hm]
  exact ⟨before.flatMap Prod.fst ++ head, more, by simp⟩

theorem clean_shown_iff (parse : List UInt8 → Option C) (text : List UInt8) :
    Clean (shown (wholeText parse text).1) ↔ ¬Joined parse text := by
  refine ⟨fun h hj => shown_of_joined hj h, fun h hit hi => h ?_⟩
  obtain ⟨calls, tail, rest, hc, htail, rfl, hshown⟩ := cut parse text
  rw [hshown] at hi
  exact joined_of_infix htail rest hc hi

/-- **A reserved marker reaches the client exactly when it is assembled across complete calls.** -/
theorem no_marker_shown_iff {J : Type} (json : SerdeJson J) (chunks : List (List UInt8)) :
    (∀ hit : DelimHit, ¬hit.marker <:+: shown (delivered (ToolOutputRouter.new.results (strictGrammar json) chunks))) ↔
      ¬Joined (strictGrammar json) chunks.flatten := by
  have hagree := results_agree chunks (@stands_new _ (strictGrammar json)) settled_new
  have hshown : shown (delivered (ToolOutputRouter.new.results (strictGrammar json) chunks)) =
      shown (wholeText (strictGrammar json) chunks.flatten).1 := by
    rw [shown_eq_atoms, shown_eq_atoms]
    exact congrArg _ hagree.events.symm
  rw [hshown]
  exact clean_shown_iff (strictGrammar json) chunks.flatten

/-- A JSON library asked about a text that is not JSON. -/
def notJson : SerdeJson Unit := ⟨fun _ => none, fun _ _ => none, fun _ => none, fun _ => ()⟩

/-- **The opener assembled from both sides of a call**: `<tool_`, a complete call, `call>`. -/
theorem opener_shown_across_call : DelimHit.open.marker <:+: shown (delivered (ToolOutputRouter.new.results
    (strictGrammar notJson) ["<tool_<tool_call><function=f></function></tool_call>call>".toUTF8.toList])) := by
  decide +kernel

end Hipfire.Route

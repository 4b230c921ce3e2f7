import Hipfire.Route.Router
/-!
# WholeText — what the router is for: one parse of the whole text

`wholeText` cuts the text at its first reserved marker and goes on behind it.  A marker is found where it starts here, and
where it ends in the router; `findMarker_of_first` says that is the same place.
-/
namespace Hipfire.Route

open List

/-- The first reserved marker of a text: what precedes it, which one it is, what follows it. -/
def findMarker : List UInt8 → Option (List UInt8 × DelimHit × List UInt8)
  | [] => none
  | b :: rest =>
    if toolCallClose <+: b :: rest then some ([], .close, (b :: rest).drop toolCallClose.length)
    else if toolCallOpen <+: b :: rest then some ([], .open, (b :: rest).drop toolCallOpen.length)
    else (findMarker rest).map fun r => (b :: r.1, r.2)

/-- No reserved marker lies in the text. -/
def Clean (text : List UInt8) : Prop := ∀ hit : DelimHit, ¬hit.marker <:+: text

theorem Clean.mono {s t : List UInt8} (h : Clean t) (hs : s <:+: t) : Clean s := fun hit hi => h hit (hi.trans hs)

theorem clean_nil : Clean [] := by
  intro hit h
  have hnil := infix_nil.1 h
  cases hit <;> cases hnil

theorem Clean.cons {b : UInt8} {t : List UInt8} (h : Clean t) (hs : ∀ hit : DelimHit, ¬hit.marker <+: b :: t) :
    Clean (b :: t) := by
  intro hit hi
  rcases infix_cons_iff.1 hi with hp | hi
  · exact hs hit hp
  · exact h hit hi

theorem Clean.concat {b : UInt8} {t : List UInt8} (h : Clean t) (hs : ∀ hit : DelimHit, ¬hit.marker <:+ t ++ [b]) :
    Clean (t ++ [b]) := by
  intro hit hi
  rcases infix_concat_iff.1 hi with hp | hi
  · exact hs hit hp
  · exact h hit hi

theorem findMarker_none : ∀ {t : List UInt8}, findMarker t = none → Clean t
  | [], _ => clean_nil
  | b :: rest, h => by
    unfold findMarker at h
    split at h
    · cases h
    rename_i hclose
    split at h
    · cases h
    rename_i hopen
    refine (findMarker_none (Option.map_eq_none_iff.1 h)).cons fun hit => ?_
    cases hit
    · exact hopen
    · exact hclose

theorem findMarker_some : ∀ {t head rest : List UInt8} {hit : DelimHit}, findMarker t = some (head, hit, rest) →
    t = head ++ hit.marker ++ rest ∧ Clean head
  | [], _, _, _, h => by cases h
  | b :: tail, head, rest, hit, h => by
    unfold findMarker at h
    split at h
    · rename_i hclose
      cases h
      exact ⟨(prefix_iff_eq_append.1 hclose).symm, clean_nil⟩
    · rename_i hclose
      split at h
      · rename_i hopen
        cases h
        exact ⟨(prefix_iff_eq_append.1 hopen).symm, clean_nil⟩
      · rename_i hopen
        rw [Option.map_eq_some_iff] at h
        obtain ⟨⟨head', hit', rest'⟩, hf, heq⟩ := h
        cases heq
        obtain ⟨htail, hclean⟩ := findMarker_some hf
        refine ⟨by rw [htail]; rfl, hclean.cons fun hit'' hp => ?_⟩
        have hpre : hit''.marker <+: b :: tail := by
          refine hp.trans ?_
          rw [htail, append_assoc]
          exact (cons_prefix_cons.2 ⟨rfl, prefix_append ..⟩)
        cases hit''
        · exact hopen hpre
        · exact hclose hpre

theorem eleven_le_len (hit : DelimHit) : 11 ≤ hit.marker.length := by cases hit <;> decide

/-- **The marker whose end is met first is the one that starts first.** -/
theorem findMarker_of_first {hit : DelimHit} (rest : List UInt8) : ∀ {head before : List UInt8} {last : UInt8},
    Clean before → before ++ [last] = head ++ hit.marker → findMarker (head ++ hit.marker ++ rest) = some (head, hit, rest)
  | [], before, last, _, _ => by
    cases hit with
    | «open» => simp [DelimHit.marker, findMarker, toolCallOpen, toolCallClose]
    | close => simp [DelimHit.marker, findMarker, toolCallClose]
  | b :: head, before, last, hclean, heq => by
    obtain ⟨d, rfl, hd⟩ : ∃ d, before = b :: d ∧ d ++ [last] = head ++ hit.marker := by
      cases before with
      | nil =>
        have hlen := congrArg length heq
        have := eleven_le_len hit
        simp only [nil_append, length_cons, length_nil, length_append] at hlen
        omega
      | cons c d =>
        rw [cons_append, cons_append, cons.injEq] at heq
        exact ⟨d, by rw [heq.1], heq.2⟩
    have ih := findMarker_of_first rest (hclean.mono (infix_cons (infix_refl d))) hd
    have hlen : d.length + 1 = head.length + hit.marker.length := by
      have := congrArg length hd
      simpa only [length_append, length_cons, length_nil] using this
    have hwhole : b :: (head ++ hit.marker ++ rest) = (b :: d) ++ last :: rest := by rw [← hd]; simp
    -- a marker that started here would have ended before the hit
    have hinside : ∀ other : DelimHit, other.marker.length ≤ d.length + 1 →
        ¬other.marker <+: b :: (head ++ hit.marker ++ rest) := by
      intro other hle hp
      rw [hwhole] at hp
      exact hclean other (prefix_of_prefix_length_le hp (prefix_append ..) hle).isInfix
    have hopen : ¬toolCallOpen <+: b :: (head ++ hit.marker ++ rest) := by
      refine hinside .open ?_
      have := eleven_le_len hit
      show 11 ≤ d.length + 1
      omega
    have hclose : ¬toolCallClose <+: b :: (head ++ hit.marker ++ rest) := by
      by_cases hle : 12 ≤ d.length + 1
      · exact hinside .close hle
      cases hit with
      | close => exact absurd hlen (by have : (DelimHit.close).marker.length = 12 := rfl; omega)
      | «open» =>
        have hhead : head = [] := by
          have : (DelimHit.open).marker.length = 11 := rfl
          exact length_eq_zero_iff.1 (by omega)
        subst hhead
        intro hp
        simp [DelimHit.marker, toolCallOpen, toolCallClose] at hp
    rw [cons_append, cons_append, findMarker, if_neg hclose, if_neg hopen, ih]
    rfl

variable {C : Type}

open ToolOutputRouter (visible)

/-- **The parse of a whole text**: visible text up to the first marker; a span's body is parsed once; the first stray
closer, nested opener, bad body or missing closer ends it. -/
def wholeText (parse : List UInt8 → Option C) (text : List UInt8) : List (ToolRouteEvent C) × Option ToolRouteError :=
  match _ : findMarker text with
  | none => (visible text, none)
  | some (head, .close, _) => (visible head, some strayCloser)
  | some (head, .open, span) =>
    match _ : findMarker span with
    | none => (visible head, some unclosedSpan)
    | some (_, .open, _) => (visible head, some nestedOpener)
    | some (body, .close, rest) =>
      match parse body with
      | none => (visible head, some badBody)
      | some call => (visible head ++ .toolCall call :: (wholeText parse rest).1, (wholeText parse rest).2)
termination_by text.length
decreasing_by
  all_goals
    rw [(findMarker_some ‹findMarker text = _›).1, (findMarker_some ‹findMarker span = _›).1]
    simp only [length_append]
    have := eleven_le_len .open
    omega

end Hipfire.Route

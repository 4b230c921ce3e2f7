import Hipfire.Eos.Pump
/-!
# Chunks — the filter does not depend on how the stream is cut

After every chunk what the filter emitted is the part of the visible text that is UTF-8, and the state stands for the scan of
the stream read so far.  The end of the stream adds the rest, unless the filter stopped or a span is open.
-/
namespace Hipfire.Eos

open List

namespace EosFilterState

variable {config : EosFilterConfig} {s t : EosFilterState}

/-! ## What is emitted -/

/-- What was emitted is a beginning of the visible text, and UTF-8. -/
structure Emitted (s : EosFilterState) : Prop where
  le : s.visibleEmitted ≤ s.visible.length
  valid : isUtf8 (s.visible.take s.visibleEmitted) = true

theorem Emitted.of_begins (h : s.Emitted) (hvis : s.visible <+: t.visible) (hem : t.visibleEmitted = s.visibleEmitted) :
    t.Emitted ∧ t.visible.take t.visibleEmitted = s.visible.take s.visibleEmitted := by
  obtain ⟨more, hmore⟩ := hvis
  have htake : t.visible.take t.visibleEmitted = s.visible.take s.visibleEmitted := by
    rw [← hmore, hem, take_append_of_le_length h.le]
  refine ⟨⟨?_, by rw [htake]; exact h.valid⟩, htake⟩
  rw [hem, ← hmore, length_append]
  exact h.le.trans (Nat.le_add_right _ _)

/-- The safe end is that of the whole visible text. -/
theorem Emitted.safeVisibleEnd_eq (h : s.Emitted) : s.safeVisibleEnd = utf8SafeEnd s.visible := by
  have hlen : (s.visible.take s.visibleEmitted).length = s.visibleEmitted := by
    rw [length_take, Nat.min_eq_left h.le]
  have heq := utf8SafeEnd_append h.valid s.pending
  unfold pending at heq
  rw [take_append_drop, hlen] at heq
  unfold safeVisibleEnd pending
  split
  · rename_i hge
    have hnil : s.visible.drop s.visibleEmitted = [] := drop_eq_nil_of_le hge
    rw [heq, hnil]
    rfl
  · rw [heq, Nat.add_comm]

theorem Emitted.le_safe (h : s.Emitted) : s.visibleEmitted ≤ utf8SafeEnd s.visible := le_utf8SafeEnd h.le h.valid

/-- What was emitted and what is emitted now are the safe part of the text. -/
theorem Emitted.take_upTo (h : s.Emitted) :
    s.visible.take s.visibleEmitted ++ s.upTo s.safeVisibleEnd = s.visible.take (utf8SafeEnd s.visible) := by
  rw [h.safeVisibleEnd_eq]
  unfold upTo
  have htake : s.visible.take s.visibleEmitted = (s.visible.take (utf8SafeEnd s.visible)).take s.visibleEmitted := by
    rw [take_take, Nat.min_eq_left h.le_safe]
  rw [htake, take_append_drop]

theorem upTo_of_not_lt {stop : Nat} (h : ¬ s.visibleEmitted < stop) : s.upTo stop = [] :=
  drop_eq_nil_of_le ((length_take_le _ _).trans (Nat.not_lt.1 h))

theorem commitStop_bytes (t : EosFilterState) : t.commitStop.2.bytes = t.upTo t.safeVisibleEnd := by
  show (if t.visibleEmitted < t.safeVisibleEnd then FilterAction.emitAndStop (t.upTo t.safeVisibleEnd) else .stop).bytes = _
  split
  · rfl
  · rename_i hlt
    rw [upTo_of_not_lt hlt]
    rfl

end EosFilterState

/-! ## The invariant of a stream -/

/-- The filter after a text, of which `out` was emitted. -/
inductive Follows (config : EosFilterConfig) (start : Bool) (text out : Bytes) (s : EosFilterState) : Prop where
  | on (stopped : s.stopped = false) (finished : s.finished = false) (cursor : s.cursor ≤ s.raw.length)
      (settled : s.Settled config) (seen : ∀ more, s.seen config more = config.scan start 0 (text ++ more))
      (emitted : s.visibleEmitted = utf8SafeEnd s.visible) (out : out = s.visible.take (utf8SafeEnd s.visible))
  | stop (v : Bytes) (stopped : s.stopped = true) (seen : ∀ more, config.scan start 0 (text ++ more) = (v, .stopped))
      (out : out = v.take (utf8SafeEnd v))

variable {config : EosFilterConfig} {start : Bool} {text out : Bytes} {s : EosFilterState}

theorem emitted_of_safe (h : s.visibleEmitted = utf8SafeEnd s.visible) : s.Emitted where
  le := by
    rw [h]
    exact utf8SafeEnd_le _
  valid := by
    rw [h]
    exact isUtf8_take_safeEnd _

theorem seen_appended (s : EosFilterState) (hle : s.cursor ≤ s.raw.length) (chunk more : Bytes) :
    ({ s with raw := s.raw ++ chunk } : EosFilterState).seen config more = s.seen config (chunk ++ more) := by
  show EosFilterConfig.before s.visible (config.scan s.inThink 0 ((s.raw ++ chunk).drop s.cursor ++ more)) = _
  rw [drop_append_of_le_length hle, append_assoc]
  rfl

variable (config : EosFilterConfig)

theorem Follows.nil (start : Bool) : Follows config start [] [] ⟨[], 0, [], 0, start, false, false⟩ := by
  refine .on rfl rfl le_rfl (fun m hm hinf => ?_) (fun more => rfl) rfl rfl
  exact EosFilterState.ne_nil_of_mem_sought hm (infix_nil.1 hinf)

/-- **One chunk.** -/
theorem Follows.observe {f : EosFilter} (hs : f.config.Separate) (h : Follows f.config start text out f.state)
    (chunk : Bytes) : (f.observe chunk).1.config = f.config ∧
      Follows f.config start (text ++ chunk) (out ++ (f.observe chunk).2.bytes) (f.observe chunk).1.state := by
  unfold EosFilter.observe
  dsimp only
  cases h with
  | stop v stopped seen hout =>
    rw [stopped, Bool.true_or, if_pos rfl]
    refine ⟨rfl, .stop v stopped (fun more => ?_) ?_⟩
    · rw [append_assoc, seen]
    · rw [hout]
      exact append_nil _
  | on stopped finished cursor settled seen emitted hout =>
    have hlive : (f.state.stopped || f.state.finished) = false := by rw [stopped, finished, Bool.or_self]
    rw [hlive, if_neg Bool.false_ne_true]
    split
    · -- nothing came and nothing waits
      rename_i hempty
      simp only [Bool.and_eq_true, List.isEmpty_iff] at hempty
      obtain ⟨⟨rfl, -⟩, -⟩ := hempty
      rw [append_nil]
      refine ⟨rfl, .on stopped finished cursor settled seen emitted ?_⟩
      rw [hout]
      exact append_nil _
    · have hem : ({ f.state with raw := f.state.raw ++ chunk } : EosFilterState).Emitted := emitted_of_safe emitted
      have hseen : ∀ more, ({ f.state with raw := f.state.raw ++ chunk } : EosFilterState).seen f.config more =
          f.config.scan start 0 (text ++ chunk ++ more) := fun more => by
        rw [seen_appended _ cursor, seen, append_assoc]
      have hcur : f.state.cursor ≤ (f.state.raw ++ chunk).length := by
        rw [length_append]
        exact cursor.trans (Nat.le_add_right _ _)
      have hp := EosFilterState.pump_pumped hs { f.state with raw := f.state.raw ++ chunk }
      generalize pump f.config false { f.state with raw := f.state.raw ++ chunk } = r at hp ⊢
      rw [← emitted] at hout
      cases hp with
      | stop hstop hvis hsame =>
        rename_i t
        obtain ⟨ht, htake⟩ := hem.of_begins hvis hsame
        refine ⟨rfl, .stop t.visible rfl (fun more => ?_) ?_⟩
        · rw [← hseen, hstop]
        · show out ++ t.commitStop.2.bytes = _
          rw [hout, EosFilterState.commitStop_bytes, ← ht.take_upTo, htake]
      | on leads hsettled =>
        obtain ⟨ht, htake⟩ := hem.of_begins leads.visible leads.visibleEmitted
        have hsafe := ht.safeVisibleEnd_eq
        have hupto := ht.take_upTo
        rw [htake] at hupto
        dsimp only
        split
        · refine ⟨rfl, .on (leads.stopped.trans stopped) (leads.finished.trans finished) (leads.cursor hcur) hsettled
            (fun more => ?_) hsafe ?_⟩
          · rw [← hseen]
            exact leads.seen more
          · rw [hout]
            exact hupto
        · rename_i hlt
          have hle := ht.le_safe
          rw [hsafe, Nat.not_lt] at hlt
          refine ⟨rfl, .on (leads.stopped.trans stopped) (leads.finished.trans finished) (leads.cursor hcur) hsettled
            (fun more => ?_) (Nat.le_antisymm hle hlt) ?_⟩
          · rw [← hseen]
            exact leads.seen more
          · rw [hout, ← hupto, EosFilterState.upTo_of_not_lt (by rw [hsafe]; exact Nat.not_lt.2 hlt)]
            rfl

/-- **All chunks.** -/
theorem Follows.observeAll : ∀ (chunks : List Bytes) {f : EosFilter} {text out : Bytes}, f.config.Separate →
    Follows f.config start text out f.state → (observeAll f chunks).1.config = f.config ∧
      Follows f.config start (text ++ chunks.flatten) (out ++ (observeAll f chunks).2) (observeAll f chunks).1.state
  | [], f, text, out, _, h => by
    rw [flatten_nil, append_nil]
    refine ⟨rfl, ?_⟩
    show Follows _ _ _ (out ++ []) _
    rw [append_nil]
    exact h
  | chunk :: chunks, f, text, out, hs, h => by
    obtain ⟨hc, h'⟩ := h.observe hs chunk
    rw [← hc] at h'
    obtain ⟨hc', h''⟩ := Follows.observeAll chunks (by rw [hc]; exact hs) h'
    rw [hc, append_assoc, append_assoc] at h''
    rw [flatten_cons]
    exact ⟨hc'.trans hc, h''⟩

/-- **The end of the stream.** -/
theorem Follows.finish {f : EosFilter} (h : Follows f.config start text out f.state) :
    let r := f.config.scan start 0 text
    out ++ f.finish.2 = (if r.2 = .open then r.1 else r.1.take (utf8SafeEnd r.1)) ∧
      f.finish.1.state.stopped = decide (r.2 = .stopped) := by
  unfold EosFilter.finish
  cases h with
  | stop v stopped seen hout =>
    have hscan := seen []
    rw [append_nil] at hscan
    rw [stopped, Bool.true_or, if_pos rfl, hscan, hout]
    exact ⟨append_nil _, stopped⟩
  | on stopped finished cursor settled seen emitted hout =>
    have hscan := seen []
    rw [append_nil, settled.seen_nil] at hscan
    obtain ⟨-, hin, hstop, hem, hvis⟩ := EosFilterState.pump_finish settled
    rw [stopped, finished, Bool.or_self, if_neg Bool.false_ne_true, ← hscan]
    unfold EosFilter.drain
    rw [hin, hem, hvis]
    cases hthink : f.state.inThink with
    | true =>
      refine ⟨?_, hstop.trans stopped⟩
      show out ++ [] = _
      rw [append_nil, hout]
      rfl
    | false =>
      rw [← emitted] at hout
      refine ⟨?_, ?_⟩
      · show out ++ (if (f.state.visible ++ f.state.rest).length ≤ f.state.visibleEmitted then _ else _ :
          EosFilterState × Bytes).2 = f.state.visible ++ f.state.rest
        have htake : out = (f.state.visible ++ f.state.rest).take f.state.visibleEmitted := by
          rw [hout, take_append_of_le_length (emitted_of_safe emitted).le]
        split
        · rename_i hle
          show out ++ [] = _
          rw [append_nil, htake, take_of_length_le hle]
        · show out ++ ((pump f.config true f.state).1.visible.drop (pump f.config true f.state).1.visibleEmitted) = _
          rw [hvis, hem, hthink, htake]
          exact take_append_drop _ _
      · show (if (f.state.visible ++ f.state.rest).length ≤ f.state.visibleEmitted then _ else _ :
          EosFilterState × Bytes).1.stopped = false
        split
        · exact hstop.trans stopped
        · exact hstop.trans stopped

/-! ## The order of the lists -/

namespace EosFilter

theorem mem_byLength {l : List Bytes} {m : Bytes} : m ∈ byLength l ↔ m ∈ l :=
  (perm_insertionSort _ l).mem_iff

theorem new_stops (m : Bytes) : m ∈ (new config).config.stops ↔ m ∈ config.stops := by
  unfold EosFilterConfig.stops
  rw [mem_filter, mem_filter]
  exact and_congr_left fun _ => mem_byLength

theorem new_scan (inThink : Bool) (text : Bytes) :
    (new config).config.scan inThink 0 text = config.scan inThink 0 text :=
  have hstrip : (new config).config.stripThink = config.stripThink := rfl
  EosFilterConfig.scan_congr hstrip (new_stops config) inThink 0 text

theorem new_markers (m : Bytes) : m ∈ (new config).config.markers ↔ m ∈ config.markers := by
  rw [EosFilterConfig.mem_markers, EosFilterConfig.mem_markers, new_stops]
  rfl

theorem new_separate {config : EosFilterConfig} (h : config.Separate) : (new config).config.Separate where
  inside := fun m hm m' hm' => h.inside m ((new_markers config m).1 hm) m' ((new_markers config m').1 hm')
  tags := fun hstrip stop hmem => h.tags hstrip stop ((new_stops config stop).1 hmem)

end EosFilter

theorem run_eq_transform {config : EosFilterConfig} (hs : config.Separate) (chunks : List Bytes) :
    run config chunks = config.transform chunks.flatten := by
  have hnil := Follows.nil (EosFilter.new config).config (config.stripThink && config.startedInThink)
  obtain ⟨hc, h⟩ := Follows.observeAll (f := .new config) chunks (EosFilter.new_separate hs) hnil
  rw [← hc] at h
  obtain ⟨hout, hstop⟩ := h.finish
  have hscan : ∀ text, (observeAll (.new config) chunks).1.config.scan (config.stripThink && config.startedInThink) 0 text =
      config.scan (config.stripThink && config.startedInThink) 0 text := fun text => by
    rw [hc]
    exact EosFilter.new_scan config _ text
  rw [nil_append, nil_append, hscan] at hout
  rw [nil_append, hscan] at hstop
  exact Prod.ext hout hstop

/-- **The filter does not depend on the chunks**: two ways to cut a stream are filtered alike, and as the transform of the
whole stream says. -/
theorem chunks_agree (config : EosFilterConfig) (hs : config.Separate) :
    (∀ chunks chunks' : List Bytes, chunks.flatten = chunks'.flatten → run config chunks = run config chunks') ∧
    ∀ chunks : List Bytes, run config chunks = config.transform chunks.flatten := by
  refine ⟨fun chunks chunks' heq => ?_, run_eq_transform hs⟩
  rw [run_eq_transform hs, run_eq_transform hs, heq]

/-- `a<|im_end|>` behind a span, in one chunk and cut inside of both markers. -/
theorem chunks_agree_qwen35 : { qwen35EosFilterConfig with stripThink := true }.Separate ∧
    run { qwen35EosFilterConfig with stripThink := true }
        [thinkOpen ++ [0x62] ++ thinkClose ++ [0x61, 0x3C, 0x7C, 0x69, 0x6D, 0x5F, 0x65, 0x6E, 0x64, 0x7C, 0x3E]] =
      run { qwen35EosFilterConfig with stripThink := true }
        [[0x3C, 0x74], [0x68, 0x69, 0x6E, 0x6B, 0x3E, 0x62], thinkClose, [0x61, 0x3C, 0x7C, 0x69],
          [0x6D, 0x5F, 0x65, 0x6E, 0x64, 0x7C, 0x3E]] :=
  have hs : { qwen35EosFilterConfig with stripThink := true }.Separate := by decide
  ⟨hs, (chunks_agree _ hs).1 _ _ rfl⟩

end Hipfire.Eos

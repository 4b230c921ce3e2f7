import Hipfire.Eos.Scan
/-!
# Pump — one run of the transform

The pump moves bytes from the unclassified rest into the visible text, or drops them, and changes nothing of what the state
stands for.  It ends with a rest that holds no complete marker, or at a stop.
-/
namespace Hipfire.Eos

open List
open EosFilterConfig (Quiet before before_before scan_hidden scan_prose)

variable {config : EosFilterConfig} {rest p more : Bytes}

/-! ## Where no marker begins -/

variable {m : Bytes} {ev : Event} {pats : List Bytes} {n : Nat}

theorem quiet_of_none (h : ∀ m ∈ pats, ¬ m <:+: p) : Quiet pats p [] := by
  intro x y heq _ m hm hpre
  rw [append_nil] at hpre
  refine h m hm (hpre.isInfix.trans ?_)
  rw [heq]
  exact (suffix_append x y).isInfix

/-- Before the first of patterns that do not stand inside one another, none begins, whatever follows. -/
theorem quiet_of_first {a b : Bytes} (hsep : ∀ m ∈ pats, ∀ m' ∈ pats, ∀ x y, x ≠ [] → m' ≠ x ++ m ++ y) (hm : m ∈ pats)
    (hfirst : ∀ m' ∈ pats, ∀ x y, a ++ m ++ b = x ++ m' ++ y → a.length ≤ x.length) (more : Bytes) :
    Quiet pats a (m ++ (b ++ more)) := by
  rintro x y rfl hy m' hm' ⟨z, hz⟩
  have hz' : m' ++ z = (y ++ m ++ b) ++ more := by
    rw [hz]
    simp only [append_assoc]
  by_cases hle : m'.length ≤ (y ++ m ++ b).length
  · -- the other marker is complete, and begins earlier
    obtain ⟨d, hd⟩ := prefix_of_append_eq hz' hle
    have := hfirst m' hm' x d (by rw [append_assoc x m', hd]; simp only [append_assoc])
    have hpos := length_pos_of_ne_nil hy
    rw [length_append] at this
    omega
  · -- the other marker ends in what follows, so this one stands inside it
    obtain ⟨d, hd⟩ := prefix_of_append_eq hz'.symm (by omega)
    exact hsep m hm m' hm' y (b ++ d) hy (by rw [← hd]; simp only [append_assoc])

/-- Before an end that covers, no pattern begins. -/
theorem quiet_of_covers {text : Bytes} (hc : Covers pats text (text.drop n))
    (hno : ∀ m ∈ pats, ¬ m <:+: text) (more : Bytes) : Quiet pats (text.take n) (text.drop n ++ more) := by
  intro x y heq hy m hm
  have htext : text = x ++ y ++ text.drop n := by rw [← heq, take_append_drop]
  rw [← append_assoc]
  exact hc.no_match hno htext hy hm

/-! ## The ends that are kept -/

theorem drop_of_suffix {v text : Bytes} (h : v <:+ text) : text.drop (text.length - v.length) = v := by
  obtain ⟨t, rfl⟩ := h
  rw [length_append, Nat.add_sub_cancel, drop_left]

theorem le_trimLoop (rest p : Bytes) (best : Nat) : ∀ n, best ≤ trimLoop rest p best n
  | 0 => le_rfl
  | n + 1 => by
    unfold trimLoop
    split
    · exact le_rfl
    · split
      · omega
      · exact le_trimLoop rest p best n

theorem trimLoop_le (rest p : Bytes) (best : Nat) : ∀ n, trimLoop rest p best n ≤ max best n
  | 0 => Nat.le_max_left _ _
  | n + 1 => by
    have := trimLoop_le rest p best n
    unfold trimLoop
    split
    · exact Nat.le_max_left _ _
    · split
      · exact Nat.le_max_right _ _
      · omega

theorem trimLoop_found {rest p : Bytes} {best k : Nat} (hk : rest.drop (rest.length - k) = p.take k) :
    ∀ n, k ≤ n → k ≤ trimLoop rest p best n
  | 0, hle => by omega
  | n + 1, hle => by
    unfold trimLoop
    split
    · omega
    split
    · exact hle
    · rename_i hne
      refine trimLoop_found hk n (Nat.lt_succ_iff.1 (Nat.lt_of_le_of_ne hle ?_))
      rintro rfl
      exact hne hk

theorem maxTrim_fold (rest : Bytes) : ∀ (watch : List Bytes) (best : Nat), best ≤ rest.length →
    let r := watch.foldl (fun best p => trimLoop rest p best (min (p.length - 1) rest.length)) best
    best ≤ r ∧ r ≤ rest.length ∧ ∀ v, v <:+ rest → Begun watch v → v.length ≤ r
  | [], best, hle => ⟨le_rfl, hle, fun v _ hb => by obtain ⟨p, hp, -⟩ := hb; cases hp⟩
  | p :: watch, best, hle => by
    have hle' : trimLoop rest p best (min (p.length - 1) rest.length) ≤ rest.length := by
      have := trimLoop_le rest p best (min (p.length - 1) rest.length)
      omega
    obtain ⟨hge, hbound, hall⟩ := maxTrim_fold rest watch _ hle'
    refine ⟨(le_trimLoop rest p best _).trans hge, hbound, fun v hv hb => ?_⟩
    obtain ⟨q, hq, hpre, hlt⟩ := hb
    rcases mem_cons.1 hq with rfl | hq
    · refine (trimLoop_found ?_ _ (Nat.le_min.2 ⟨Nat.le_sub_one_of_lt hlt, hv.length_le⟩)).trans hge
      rw [drop_of_suffix hv]
      exact prefix_iff_eq_take.1 hpre
    · exact hall v hv ⟨q, hq, hpre, hlt⟩

theorem EosFilterConfig.markers_sub_watch (h : m ∈ config.markers) : m ∈ config.watch := by
  unfold EosFilterConfig.watch
  rw [append_assoc]
  exact mem_append_right _ h

theorem holdbackTrimLen_le (config : EosFilterConfig) (rest : Bytes) : config.holdbackTrimLen rest ≤ rest.length := by
  refine (utf8SafeEnd_le _).trans ?_
  rw [length_take]
  exact Nat.min_le_right _ _

/-- **What is kept of a rest covers every begun marker.** -/
theorem covers_holdback (config : EosFilterConfig) (rest : Bytes) :
    Covers config.markers rest (rest.drop (config.holdbackTrimLen rest)) where
  suffix := drop_suffix _ _
  longest := fun v hv hb => by
    obtain ⟨-, hle, hall⟩ := maxTrim_fold rest config.watch 0 (Nat.zero_le _)
    obtain ⟨p, hp, hpre, hlt⟩ := hb
    have hv' := hall v hv ⟨p, EosFilterConfig.markers_sub_watch hp, hpre, hlt⟩
    have htake := utf8SafeEnd_le (rest.take (rest.length - maxTrim config.watch rest))
    rw [length_take] at htake
    rw [length_drop]
    unfold EosFilterConfig.holdbackTrimLen
    unfold maxTrim at htake ⊢
    omega

/-- **What is kept of a span covers a begun closer.** -/
theorem covers_trailing (rest needle : Bytes) : Covers [needle] rest (rest.drop (trailingPrefixStart rest needle)) where
  suffix := drop_suffix _ _
  longest := fun v hv hb => by
    obtain ⟨p, hp, hpre, hlt⟩ := hb
    rw [mem_singleton.1 hp] at hpre hlt
    unfold trailingPrefixStart
    have hle := findDown_le (fun k => decide (rest.drop (rest.length - k) = needle.take k))
      (min (needle.length - 1) rest.length)
    have hfound : v.length = 0 ∨ v.length ≤
        findDown (fun k => decide (rest.drop (rest.length - k) = needle.take k)) (min (needle.length - 1) rest.length) := by
      by_cases h0 : v.length = 0
      · exact .inl h0
      · refine .inr (le_findDown (decide_eq_true ?_) (Nat.le_min.2 ⟨Nat.le_sub_one_of_lt hlt, hv.length_le⟩) h0)
        rw [drop_of_suffix hv]
        exact prefix_iff_eq_take.1 hpre
    rw [length_drop]
    omega

/-! ## The event that counts -/

theorem Event.earlier_some (best cand : Event) :
    ∃ r ∈ [best, cand], earlier (some best) cand = some r ∧ r.place ≤ best.place ∧ r.place ≤ cand.place := by
  have hnew : cand.place ≤ best.place → ∃ r ∈ [best, cand], some cand = some r ∧ r.place ≤ best.place ∧
      r.place ≤ cand.place := fun hle => ⟨cand, mem_cons_of_mem _ mem_cons_self, rfl, hle, le_rfl⟩
  unfold earlier
  dsimp only
  split
  · exact hnew (by omega)
  split
  · exact hnew (by omega)
  · split
    · exact hnew (by omega)
    · exact ⟨best, mem_cons_self, rfl, le_rfl, by omega⟩

/-- The fold chooses one of the events, at the first place. -/
theorem Event.foldl_earlier : ∀ (l : List Event) (best : Event),
    ∃ r ∈ best :: l, l.foldl earlier (some best) = some r ∧ ∀ e ∈ best :: l, r.place ≤ e.place
  | [], best => ⟨best, mem_cons_self, rfl, fun e he => by rw [mem_singleton.1 he]⟩
  | e :: l, best => by
    obtain ⟨b, hb, heq, hbest, hcand⟩ := Event.earlier_some best e
    obtain ⟨r, hr, hfold, hall⟩ := Event.foldl_earlier l b
    obtain ⟨hrb, hrl⟩ := forall_mem_cons.1 hall
    refine ⟨r, ?_, by rw [foldl_cons, heq, hfold],
      forall_mem_cons.2 ⟨hrb.trans hbest, forall_mem_cons.2 ⟨hrb.trans hcand, hrl⟩⟩⟩
    rcases mem_cons.1 hr with rfl | hr
    · exact mem_append_left l hb
    · exact mem_append_right [best, e] hr

namespace EosFilterConfig

/-- The markers of a kind. -/
def Marks (config : EosFilterConfig) : EventKind → Bytes → Prop
  | .stop, m => m ∈ config.stops
  | .thinkOpen, m => config.stripThink = true ∧ m = thinkOpen
  | .thinkClose, m => config.stripThink = true ∧ m = thinkClose

theorem Marks.mem {kind : EventKind} (h : config.Marks kind m) : m ∈ config.markers := by
  cases kind with
  | stop => exact mem_markers.2 (.inl h)
  | thinkOpen => exact mem_markers.2 (.inr ⟨h.1, .inl h.2⟩)
  | thinkClose => exact mem_markers.2 (.inr ⟨h.1, .inr h.2⟩)

theorem exists_marks (h : m ∈ config.markers) : ∃ kind, config.Marks kind m := by
  rcases mem_markers.1 h with h | ⟨hs, h | h⟩
  · exact ⟨.stop, h⟩
  · exact ⟨.thinkOpen, hs, h⟩
  · exact ⟨.thinkClose, hs, h⟩

theorem find_eq_some {kind : EventKind} :
    Event.find kind rest m = some ev ↔ findAt m rest = some ev.place ∧ ev.kind = kind ∧ ev.len = m.length := by
  unfold Event.find
  rw [Option.map_eq_some_iff]
  constructor
  · rintro ⟨i, hi, rfl⟩
    exact ⟨hi, rfl, rfl⟩
  · rintro ⟨hi, rfl, hlen⟩
    exact ⟨ev.place, hi, by rw [← hlen]⟩

theorem mem_events : ev ∈ config.events rest ↔
    ∃ m, config.Marks ev.kind m ∧ findAt m rest = some ev.place ∧ ev.len = m.length := by
  have htags : ev ∈ (if config.stripThink then
      (Event.find .thinkOpen rest thinkOpen).toList ++ (Event.find .thinkClose rest thinkClose).toList else []) ↔
      config.stripThink = true ∧ (Event.find .thinkOpen rest thinkOpen = some ev ∨
        Event.find .thinkClose rest thinkClose = some ev) := by
    cases config.stripThink <;> simp [Option.mem_toList]
  unfold events
  rw [mem_append, mem_filterMap, htags]
  simp only [find_eq_some]
  constructor
  · rintro (⟨m, hm, hi, hk, hl⟩ | ⟨hs, ⟨hi, hk, hl⟩ | ⟨hi, hk, hl⟩⟩)
    · exact ⟨m, by rw [hk]; exact hm, hi, hl⟩
    · exact ⟨_, by rw [hk]; exact ⟨hs, rfl⟩, hi, hl⟩
    · exact ⟨_, by rw [hk]; exact ⟨hs, rfl⟩, hi, hl⟩
  · rintro ⟨m, hm, hi, hl⟩
    cases hk : ev.kind with
    | stop =>
      rw [hk] at hm
      exact .inl ⟨m, hm, hi, rfl, hl⟩
    | thinkOpen =>
      rw [hk] at hm
      obtain ⟨hs, rfl⟩ := hm
      exact .inr ⟨hs, .inl ⟨hi, rfl, hl⟩⟩
    | thinkClose =>
      rw [hk] at hm
      obtain ⟨hs, rfl⟩ := hm
      exact .inr ⟨hs, .inr ⟨hi, rfl, hl⟩⟩

theorem earliestEvent_spec (config : EosFilterConfig) (rest : Bytes) :
    config.events rest = [] ∧ config.earliestEvent rest = none ∨
    ∃ r ∈ config.events rest, config.earliestEvent rest = some r ∧ ∀ e ∈ config.events rest, r.place ≤ e.place := by
  unfold earliestEvent
  cases config.events rest with
  | nil => exact .inl ⟨rfl, rfl⟩
  | cons e l => exact .inr (Event.foldl_earlier l e)

/-- **No event, no marker.** -/
theorem earliestEvent_none (h : config.earliestEvent rest = none) : ∀ m ∈ config.markers, ¬ m <:+: rest := by
  rintro m hm ⟨a, b, rfl⟩
  obtain ⟨kind, hk⟩ := exists_marks hm
  obtain ⟨i, hi, -⟩ := findAt_le m a b
  have hmem : (⟨i, kind, m.length⟩ : Event) ∈ config.events (a ++ m ++ b) := mem_events.2 ⟨m, hk, hi, rfl⟩
  rcases earliestEvent_spec config (a ++ m ++ b) with ⟨hnil, -⟩ | ⟨r, -, hr, -⟩
  · rw [hnil] at hmem
    cases hmem
  · cases h.symm.trans hr

/-- **The event is a marker, and none begins before it.** -/
theorem earliestEvent_some (h : config.earliestEvent rest = some ev) : ∃ m a b, config.Marks ev.kind m ∧
    rest = a ++ m ++ b ∧ a.length = ev.place ∧ m.length = ev.len ∧
    ∀ m' ∈ config.markers, ∀ x y, rest = x ++ m' ++ y → a.length ≤ x.length := by
  obtain ⟨-, hnone⟩ | ⟨r, hmem, hr, hall⟩ := earliestEvent_spec config rest
  · cases h.symm.trans hnone
  cases h.symm.trans hr
  obtain ⟨m, hk, hi, hl⟩ := mem_events.1 hmem
  obtain ⟨a, b, heq, hlen⟩ := findAt_some hi
  refine ⟨m, a, b, hk, heq, hlen, hl.symm, fun m' hm' x y heq' => ?_⟩
  obtain ⟨kind, hk'⟩ := exists_marks hm'
  obtain ⟨j, hj, hle⟩ := findAt_le m' x y
  rw [← heq'] at hj
  have := hall ⟨j, kind, m'.length⟩ (mem_events.2 ⟨m', hk', hj, rfl⟩)
  rw [hlen]
  exact this.trans hle

end EosFilterConfig

/-! ## What a state stands for -/

namespace EosFilterState

variable {s s' : EosFilterState}

/-- What will be visible, as far as it is known, if `more` follows. -/
def seen (config : EosFilterConfig) (s : EosFilterState) (more : Bytes) : Bytes × Ending :=
  before s.visible (config.scan s.inThink 0 (s.rest ++ more))

/-- What is looked for in the rest. -/
def sought (config : EosFilterConfig) (s : EosFilterState) : List Bytes :=
  if s.inThink then [thinkClose] else config.markers

/-- The rest holds nothing complete. -/
def Settled (config : EosFilterConfig) (s : EosFilterState) : Prop := ∀ m ∈ s.sought config, ¬ m <:+: s.rest

theorem sought_inside (hin : s.inThink = true) : s.sought config = [thinkClose] := if_pos hin

theorem sought_outside (hin : s.inThink = false) : s.sought config = config.markers :=
  if_neg (by rw [hin]; exact Bool.false_ne_true)

theorem ne_nil_of_mem_sought (h : m ∈ s.sought config) : m ≠ [] := by
  unfold sought at h
  split at h
  · rw [mem_singleton.1 h]
    exact cons_ne_nil _ _
  · exact EosFilterConfig.ne_nil_of_mem_markers h

/-- `s'` stands for the same as `s`, with more of it visible. -/
structure Leads (config : EosFilterConfig) (s s' : EosFilterState) : Prop where
  cursor : s.cursor ≤ s.raw.length → s'.cursor ≤ s'.raw.length
  seen : ∀ more, s'.seen config more = s.seen config more
  visible : s.visible <+: s'.visible
  visibleEmitted : s'.visibleEmitted = s.visibleEmitted
  stopped : s'.stopped = s.stopped
  finished : s'.finished = s.finished

theorem Leads.refl (config : EosFilterConfig) (s : EosFilterState) : Leads config s s :=
  ⟨id, fun _ => rfl, prefix_refl _, rfl, rfl, rfl⟩

/-- How a pump ends. -/
inductive Pumped (config : EosFilterConfig) (s : EosFilterState) : EosFilterState × Option FilterAction → Prop where
  | on {s' : EosFilterState} (leads : Leads config s s') (settled : s'.Settled config) : Pumped config s (s', none)
  | stop {t : EosFilterState} (seen : ∀ more, s.seen config more = (t.visible, .stopped)) (visible : s.visible <+: t.visible)
      (emitted : t.visibleEmitted = s.visibleEmitted) : Pumped config s (t.commitStop.1, some t.commitStop.2)

theorem Pumped.trans {r : EosFilterState × Option FilterAction} (h : Leads config s s') (hp : Pumped config s' r) :
    Pumped config s r := by
  cases hp with
  | on leads settled =>
    refine .on ⟨fun hle => leads.cursor (h.cursor hle), fun more => ?_, h.visible.trans leads.visible,
      leads.visibleEmitted.trans h.visibleEmitted, leads.stopped.trans h.stopped, leads.finished.trans h.finished⟩ settled
    rw [leads.seen, h.seen]
  | stop seen visible emitted =>
    refine .stop (fun more => ?_) (h.visible.trans visible) (emitted.trans h.visibleEmitted)
    rw [← h.seen, seen]

/-! ## The turns of the loop -/

theorem rest_cursor (s : EosFilterState) (n : Nat) : s.raw.drop (s.cursor + n) = s.rest.drop n := by
  unfold rest
  rw [drop_drop]

theorem cursor_le (hle : s.cursor ≤ s.raw.length) (hn : n ≤ s.rest.length) : s.cursor + n ≤ s.raw.length := by
  unfold rest at hn
  rw [length_drop] at hn
  omega

theorem rest_nil (h : s.raw.length ≤ s.cursor) : s.rest = [] := drop_eq_nil_of_le h

theorem rest_past {a b : Bytes} (heq : s.rest = a ++ m ++ b) : s.raw.drop (s.cursor + a.length + m.length) = b ∧
    (s.cursor ≤ s.raw.length → s.cursor + a.length + m.length ≤ s.raw.length) := by
  rw [Nat.add_assoc, rest_cursor, heq, ← length_append, drop_left]
  refine ⟨rfl, fun hle => cursor_le hle ?_⟩
  rw [heq]
  exact (prefix_append _ _).length_le

theorem leads_close (hin : s.inThink = true) {i : Nat} (h : findAt thinkClose s.rest = some i) :
    Leads config s { s with cursor := s.cursor + i + thinkClose.length, inThink := false } where
  cursor := fun hle => by
    obtain ⟨a, b, heq, rfl⟩ := findAt_some h
    exact (rest_past heq).2 hle
  seen := fun more => by
    obtain ⟨a, b, heq, rfl⟩ := findAt_some h
    have hquiet : Quiet [thinkClose] a (thinkClose ++ (b ++ more)) := by
      refine quiet_of_first (fun m hm m' hm' x y hx heq => ?_) mem_cons_self (fun m' hm' x y heq' => ?_) more
      · rw [mem_singleton.1 hm, mem_singleton.1 hm'] at heq
        have hlen := congrArg length heq
        have hpos := length_pos_of_ne_nil hx
        rw [length_append, length_append] at hlen
        omega
      · rw [mem_singleton.1 hm'] at heq'
        obtain ⟨j, hj, hle⟩ := findAt_le thinkClose x y
        rw [← heq', ← heq, h] at hj
        cases hj
        exact hle
    unfold EosFilterState.seen
    show before s.visible (config.scan false 0 (s.raw.drop _ ++ more)) = _
    rw [(rest_past heq).1, hin, heq, append_assoc, append_assoc, scan_hidden _ _ hquiet, EosFilterConfig.scan_closed]
  visible := prefix_refl _
  visibleEmitted := rfl
  stopped := rfl
  finished := rfl

theorem leads_hidden (hin : s.inThink = true) (hno : ¬ thinkClose <:+: s.rest)
    (hn : n ≤ s.rest.length) (hc : Covers [thinkClose] s.rest (s.rest.drop n)) :
    Leads config s { s with cursor := s.cursor + n } := by
  refine ⟨fun hle => cursor_le hle hn, fun more => ?_, prefix_refl _, rfl, rfl, rfl⟩
  have hquiet := quiet_of_covers hc (fun m hm => by rw [mem_singleton.1 hm]; exact hno) more
  unfold EosFilterState.seen
  show before s.visible (config.scan s.inThink 0 (s.raw.drop _ ++ more)) = _
  rw [rest_cursor, hin, ← scan_hidden _ _ hquiet, ← append_assoc, take_append_drop]

theorem leads_prose (hin : s.inThink = false) (hno : ∀ m ∈ config.markers, ¬ m <:+: s.rest)
    (hn : n ≤ s.rest.length) (hc : Covers config.markers s.rest (s.rest.drop n)) :
    Leads config s { s.pushVisible (s.rest.take n) with cursor := s.cursor + n } := by
  refine ⟨fun hle => cursor_le hle hn, fun more => ?_, prefix_append _ _, rfl, rfl, rfl⟩
  have hquiet := quiet_of_covers hc hno more
  unfold EosFilterState.seen
  show before (s.visible ++ s.rest.take n) (config.scan s.inThink 0 (s.raw.drop _ ++ more)) = _
  rw [rest_cursor, hin, ← before_before, ← scan_prose _ _ hquiet, ← append_assoc,
    take_append_drop]

/-- The state after an event, before its kind is looked at. -/
def past (s : EosFilterState) (ev : Event) : EosFilterState :=
  { s.pushVisible (s.rest.take ev.place) with cursor := s.cursor + ev.place + ev.len }

/-- **What an event leads to**: the prose before it is visible, and the marker stands in front of the new rest. -/
theorem seen_event (hs : config.Separate) (hin : s.inThink = false)
    (h : config.earliestEvent s.rest = some ev) : ∃ m, config.Marks ev.kind m ∧
    (s.cursor ≤ s.raw.length → (s.past ev).cursor ≤ (s.past ev).raw.length) ∧
    (s.past ev).rest.length < s.rest.length ∧ ∀ more, s.seen config more =
      before (s.past ev).visible (config.scan false 0 (m ++ ((s.past ev).rest ++ more))) := by
  obtain ⟨m, a, b, hk, heq, hplace, hlen, hfirst⟩ := EosFilterConfig.earliestEvent_some h
  have htake : s.rest.take ev.place = a := by rw [heq, ← hplace, append_assoc, take_left]
  obtain ⟨hrest, hcursor⟩ := rest_past heq
  rw [hplace, hlen] at hrest hcursor
  replace hrest : (s.past ev).rest = b := hrest
  have hpos := length_pos_of_ne_nil (EosFilterConfig.ne_nil_of_mem_markers hk.mem)
  refine ⟨m, hk, hcursor, ?_, fun more => ?_⟩
  · rw [hrest, heq, length_append, length_append]
    omega
  · have hquiet := quiet_of_first hs.inside hk.mem (fun m' hm' x y h' => hfirst m' hm' x y (heq.trans h')) more
    have hvis : (s.past ev).visible = s.visible ++ a := by rw [← htake]; rfl
    unfold EosFilterState.seen
    rw [hin, hrest, hvis, heq, append_assoc, append_assoc, scan_prose _ _ hquiet,
      before_before]

theorem settled_of_drop {t : EosFilterState} (hrest : t.rest = s.rest.drop n)
    (hno : ∀ m ∈ t.sought config, ¬ m <:+: s.rest) : t.Settled config := by
  intro m hm hinf
  rw [hrest] at hinf
  exact hno m hm (hinf.trans (drop_suffix _ _).isInfix)

/-! ## The loop -/

/-- **The pump changes nothing of what the state stands for**, and ends settled or at a stop. -/
theorem pumpLoop_pumped (hs : config.Separate) : ∀ (fuel : Nat) (s : EosFilterState), s.rest.length < fuel →
    Pumped config s (pumpLoop config false fuel s)
  | 0, _, h => absurd h (Nat.not_lt_zero _)
  | fuel + 1, s, h => by
    rw [pumpLoop]
    split
    · rename_i hend
      refine .on (Leads.refl config s) fun m hm hinf => ne_nil_of_mem_sought hm ?_
      rw [rest_nil hend] at hinf
      exact infix_nil.1 hinf
    split
    · -- in a span: the closer, or all but what may begin it
      rename_i hin
      split
      · rename_i idx hfind
        refine Pumped.trans (leads_close hin hfind) (pumpLoop_pumped hs fuel _ ?_)
        obtain ⟨a, b, heq, rfl⟩ := findAt_some hfind
        show (s.raw.drop _).length < fuel
        have hpos : 0 < thinkClose.length := Nat.succ_pos _
        rw [heq, length_append, length_append] at h
        rw [(rest_past heq).1]
        omega
      · rename_i hfind
        have hno : ¬ thinkClose <:+: s.rest := by
          rintro ⟨a, b, heq⟩
          obtain ⟨i, hi, -⟩ := findAt_le thinkClose a b
          rw [heq, hfind] at hi
          cases hi
        refine .on (leads_hidden hin hno (Nat.sub_le _ _) (covers_trailing _ _))
          (settled_of_drop (rest_cursor s _) fun m hm => ?_)
        rw [sought_inside (by exact hin)] at hm
        rw [mem_singleton.1 hm]
        exact hno
    · rename_i hin
      rw [Bool.not_eq_true] at hin
      split
      · rename_i hnone
        have hno := EosFilterConfig.earliestEvent_none hnone
        refine .on (leads_prose hin hno (holdbackTrimLen_le config _) (covers_holdback config _))
          (settled_of_drop (rest_cursor s _) fun m hm => ?_)
        rw [sought_outside (by exact hin)] at hm
        exact hno m hm
      · rename_i ev hev
        obtain ⟨m, hk, hcur, hlt, hseen⟩ := seen_event hs hin hev
        have hvis : s.visible <+: (s.past ev).visible := prefix_append _ _
        have hfuel : (s.past ev).rest.length < fuel := Nat.lt_of_lt_of_le hlt (Nat.lt_succ_iff.1 h)
        split
        · rename_i hkind
          rw [hkind] at hk
          refine .stop (t := s.past ev) (fun more => ?_) hvis rfl
          rw [hseen, EosFilterConfig.scan_stop hk]
          show (_ ++ [], _) = _
          rw [append_nil]
        · rename_i hkind
          rw [hkind] at hk
          obtain ⟨hstrip, rfl⟩ := hk
          have hl : Leads config s { s.past ev with inThink := true } := by
            refine ⟨hcur, fun more => ?_, hvis, rfl, rfl, rfl⟩
            rw [hseen, hs.scan_opened hstrip]
            rfl
          exact Pumped.trans hl (pumpLoop_pumped hs fuel _ hfuel)
        · rename_i hkind
          rw [hkind] at hk
          obtain ⟨hstrip, rfl⟩ := hk
          have hl : Leads config s (s.past ev) := by
            refine ⟨hcur, fun more => ?_, hvis, rfl, rfl, rfl⟩
            rw [hseen, hs.scan_orphan hstrip]
            unfold EosFilterState.seen
            rw [show (s.past ev).inThink = false from hin]
          exact Pumped.trans hl (pumpLoop_pumped hs fuel _ hfuel)

theorem pump_pumped (hs : config.Separate) (s : EosFilterState) : Pumped config s (pump config false s) := by
  refine pumpLoop_pumped hs _ s (Nat.lt_succ_of_le ?_)
  unfold rest
  rw [length_drop]
  exact Nat.sub_le _ _

/-- **At the end of the stream** a settled rest is prose, or dropped with the span it stands in. -/
theorem pump_finish (h : s.Settled config) : (pump config true s).2 = none ∧
    (pump config true s).1.inThink = s.inThink ∧ (pump config true s).1.stopped = s.stopped ∧
    (pump config true s).1.visibleEmitted = s.visibleEmitted ∧
    (pump config true s).1.visible = if s.inThink then s.visible else s.visible ++ s.rest := by
  unfold pump
  rw [pumpLoop]
  unfold Settled sought at h
  split
  · rename_i hend
    refine ⟨rfl, rfl, rfl, rfl, ?_⟩
    rw [rest_nil hend, append_nil, ite_self]
  split
  · rename_i hin
    rw [if_pos hin] at h
    split
    · rename_i idx hfind
      obtain ⟨a, b, heq, -⟩ := findAt_some hfind
      exact absurd ⟨a, b, heq.symm⟩ (h thinkClose mem_cons_self)
    · exact ⟨rfl, rfl, rfl, rfl, rfl⟩
  · rename_i hin
    rw [if_neg hin] at h
    split
    · refine ⟨rfl, rfl, rfl, rfl, ?_⟩
      show s.visible ++ s.rest.take s.rest.length = _
      rw [take_length]
    · rename_i ev hev
      obtain ⟨m, a, b, hk, heq, -⟩ := EosFilterConfig.earliestEvent_some hev
      exact absurd ⟨a, b, heq.symm⟩ (h m hk.mem)

theorem Settled.seen_nil (h : s.Settled config) : s.seen config [] =
    if s.inThink then (s.visible, .inThink) else (s.visible ++ s.rest, .open) := by
  unfold seen
  unfold Settled sought at h
  split
  · rename_i hin
    rw [if_pos hin] at h
    rw [hin, scan_hidden _ _ (quiet_of_none h)]
    show (_ ++ [], _) = _
    rw [append_nil]
    rfl
  · rename_i hin
    rw [if_neg hin] at h
    rw [Bool.not_eq_true] at hin
    rw [hin, scan_prose _ _ (quiet_of_none h)]
    show (_ ++ (_ ++ []), _) = _
    rw [append_nil]
    rfl

end EosFilterState

end Hipfire.Eos

import Hipfire.Base.Run
import Hipfire.Calls.Matcher
/-!
# Closes — what the arguments hold when the matcher leaves them

The matcher keeps the end of the arguments only.  `Watched` adds what the buffer has let go of, so that the whole body is at
hand when the close marker ends it, and records every exit from the arguments.  A close marker may be split over
tokens: `InBody` says that wherever one has begun outside a string, the outer object was closed and the required fields were
there.
-/
namespace Hipfire.Calls

open List
open Json (quote backslash openBrace closeBrace quoted)

/-! ## Scans and markers -/

theorem ArgsScan.run_append (s : ArgsScan) (a b : Text) : s.run (a ++ b) = (s.run a).run b := foldl_append

/-- A close marker starts here, or runs to the end of the text. -/
def StartsMarker (r : Text) : Prop := r ≠ [] ∧ (closeMarker <+: r ∨ r <+: closeMarker)

variable {m m' : Matcher} {r : Text} {w : Watched}

theorem StartsMarker.head (h : StartsMarker r) : ∃ r', r = 60 :: r' := by
  obtain ⟨hr, hp⟩ := h
  obtain ⟨b, r', rfl⟩ := exists_cons_of_ne_nil hr
  refine ⟨r', ?_⟩
  have hb : closeMarker = 60 :: closeMarker.tail := by decide
  rw [hb] at hp
  rcases hp with hp | hp <;> rw [(cons_prefix_cons.1 hp).1]

/-- No marker starts inside another: `<` stands at its head only. -/
theorem not_prefix_of_starts {v : Text} (hv : v ≠ []) (h : StartsMarker r) : ¬ v ++ r <+: closeMarker := by
  intro hp
  obtain ⟨r', rfl⟩ := h.head
  obtain ⟨b, v', rfl⟩ := exists_cons_of_ne_nil hv
  have hmem : (60 : UInt8) ∈ closeMarker.tail := (cons_prefix_cons.1 hp).2.subset (by simp)
  exact absurd hmem (by decide)

theorem touches_of_starts {s u : Text} (hs : s = u ++ r) (h : StartsMarker r) : touchesCloseMarker s = true := by
  subst hs
  unfold touchesCloseMarker tailMatchesMarker
  obtain ⟨hr, ⟨post, rfl⟩ | hp⟩ := h
  · rw [cutAt_isSome_of_append, Bool.true_or]
  rw [Bool.or_eq_true, any_eq_true]
  refine .inr ⟨r.length, ?_, ?_⟩
  · have hpos := length_pos_iff.2 hr
    have hle := hp.length_le
    exact mem_range'_1.2 ⟨hpos, by omega⟩
  · rw [decide_eq_true_eq, ← prefix_iff_eq_take.1 hp]
    exact suffix_append u r

/-- The gate's simulation decides where the first marker begins. -/
theorem outerClosed_at (hr : StartsMarker r) :
    ∀ (s : ArgsScan) (t : Text), outerClosedBeforeMarker s (t ++ r) = true → (s.run t).inString = false →
      (∀ u v, t = u ++ v → v ≠ [] → ¬ closeMarker <+: v ++ r) → (s.run t).depth < 0
  | s, [], h, hout, _ => by
    obtain ⟨b, r', rfl⟩ := exists_cons_of_ne_nil hr.1
    have hout' : s.inString = false := hout
    rw [nil_append, outerClosedBeforeMarker, if_pos] at h
    · exact of_decide_eq_true h
    · rw [hout', Bool.not_false, Bool.true_and, Bool.or_eq_true, decide_eq_true_eq, decide_eq_true_eq]
      exact hr.2
  | s, b :: t, h, hout, hfirst => by
    rw [cons_append, outerClosedBeforeMarker, if_neg] at h
    · exact outerClosed_at hr (s.step b) t h hout
        (fun u v huv => hfirst (b :: u) v (by rw [huv, cons_append]))
    · rw [Bool.and_eq_true, Bool.or_eq_true, decide_eq_true_eq, decide_eq_true_eq]
      rintro ⟨-, hp | hp⟩
      · exact hfirst [] (b :: t) rfl (cons_ne_nil b t) hp
      · exact not_prefix_of_starts (cons_ne_nil b t) hr hp

/-- A close marker, or the start of one at the end, begins outside a string. -/
def beginsMarker : ArgsScan → Text → Bool
  | _, [] => false
  | s, byte :: text =>
    !s.inString && (decide (closeMarker <+: byte :: text) || decide (byte :: text <+: closeMarker)) ||
      beginsMarker (s.step byte) text

theorem beginsMarker_at (hr : StartsMarker r) :
    ∀ (s : ArgsScan) (t : Text), (s.run t).inString = false → beginsMarker s (t ++ r) = true
  | s, [], hout => by
    obtain ⟨b, r', rfl⟩ := exists_cons_of_ne_nil hr.1
    have hout' : s.inString = false := hout
    rw [nil_append, beginsMarker, hout', Bool.not_false, Bool.true_and, Bool.or_eq_true, Bool.or_eq_true,
      decide_eq_true_eq, decide_eq_true_eq]
    exact .inl hr.2
  | s, b :: t, hout => by
    rw [cons_append, beginsMarker, beginsMarker_at hr (s.step b) t hout, Bool.or_true]

theorem keepLast_suffix (keep : Nat) (s : Text) : keepLast keep s <:+ s := by
  unfold keepLast
  split
  · exact (dropWhile_suffix _).trans (drop_suffix _ _)
  · exact suffix_refl s

/-! ## What feeding a text changes -/

section

variable (g : CompiledGrammar)

theorem Matcher.pushByte_eq (m : Matcher) (byte : UInt8) : ∃ buf flag, m.pushByte g byte =
        { m with args := m.args.step byte, attractorBuf := buf, attractorDetected := flag } ∧
      (m.attractorDetected = true → flag = true) := by
  unfold Matcher.pushByte Matcher.pushAttractorByte
  split
  · exact ⟨_, _, rfl, id⟩
  split
  · exact ⟨_, _, rfl, id⟩
  · rename_i hflag
    split
    · exact ⟨_, _, rfl, id⟩
    · exact ⟨_, _, rfl, fun h => absurd h hflag⟩

theorem Matcher.updateArgsBraceState_eq : ∀ (text : Text) (m : Matcher), ∃ buf flag, m.updateArgsBraceState g text =
        { m with args := m.args.run text, attractorBuf := buf, attractorDetected := flag } ∧
      (m.attractorDetected = true → flag = true)
  | [], m => ⟨_, _, rfl, id⟩
  | byte :: text, m => by
    obtain ⟨buf, flag, hm, hflag⟩ := m.pushByte_eq g byte
    obtain ⟨buf', flag', hm', hflag'⟩ := updateArgsBraceState_eq text (m.pushByte g byte)
    refine ⟨buf', flag', ?_, fun h => hflag' ?_⟩
    · change (m.pushByte g byte).updateArgsBraceState g text = _
      rw [hm', hm]
      rfl
    · rw [hm]
      exact hflag h

theorem Matcher.feed_inArgs (h : m.state = .inArgs) (text : Text) : ∃ buf flag, m.feed g text =
        { m with
          partialBuf := m.partialBuf ++ text
          ngramHistory := keepLast g.config.ngramWindow (m.ngramHistory ++ text)
          args := m.args.run text
          attractorBuf := buf
          attractorDetected := flag } ∧
      (m.attractorDetected = true → flag = true) := by
  obtain ⟨buf, flag, hm, hflag⟩ := Matcher.updateArgsBraceState_eq g text (m.updateNgramHistory g text)
  refine ⟨buf, flag, ?_, hflag⟩
  unfold Matcher.feed
  rw [if_pos h, hm]
  rfl

theorem Matcher.feed_other (h : m.state ≠ .inArgs) (text : Text) :
    m.feed g text = { m with partialBuf := m.partialBuf ++ text } := by
  unfold Matcher.feed
  rw [if_neg h]

theorem Matcher.feed_place (m : Matcher) (text : Text) :
    (m.feed g text).partialBuf = m.partialBuf ++ text ∧ (m.feed g text).state = m.state := by
  by_cases h : m.state = .inArgs
  · obtain ⟨_, _, hm, -⟩ := Matcher.feed_inArgs g h text
    rw [hm]
    exact ⟨rfl, rfl⟩
  · rw [Matcher.feed_other g h]
    exact ⟨rfl, rfl⟩

theorem Matcher.enterArgs_eq (hist : m.ngramHistory = []) (tool : Nat) (rest : Text) :
    ∃ buf flag, m.enterArgs g tool rest =
      { m with
        state := .inArgs
        partialBuf := rest
        ngramHistory := keepLast g.config.ngramWindow rest
        currentTool := some tool
        args := ArgsScan.start.run rest
        attractorBuf := buf
        attractorDetected := flag } := by
  unfold Matcher.enterArgs
  split
  · rename_i hrest
    rw [isEmpty_iff.1 hrest]
    refine ⟨m.attractorBuf, m.attractorDetected, ?_⟩
    obtain ⟨state, buf, history, abuf, flag, tool', args⟩ := m
    obtain rfl : history = [] := hist
    rfl
  · obtain ⟨buf, flag, hm, -⟩ := Matcher.updateArgsBraceState_eq g rest
      (Matcher.updateNgramHistory g
        { m with partialBuf := rest, state := .inArgs, currentTool := some tool, args := .start } rest)
    refine ⟨buf, flag, hm.trans ?_⟩
    unfold Matcher.updateNgramHistory
    rw [hist, nil_append]

/-! ## The loop ends -/

theorem matchHeader_some : ∀ {tools : List ToolSchema} {i : Nat} {buf : Text} {tool : Nat} {rest : Text},
    matchHeader tools i buf = some (tool, rest) → ∃ t ∈ tools, buf = t.header ++ rest
  | [], _, _, _, _, h => nomatch h
  | t :: tools, i, buf, tool, rest, h => by
    rw [matchHeader] at h
    split at h
    · rename_i rest' hstrip
      obtain ⟨-, rfl⟩ := Prod.mk.inj (Option.some.inj h)
      exact ⟨t, mem_cons_self, stripStart_eq_some.1 hstrip⟩
    · obtain ⟨t', ht', hbuf⟩ := matchHeader_some h
      exact ⟨t', mem_cons_of_mem t ht', hbuf⟩

theorem Matcher.enterArgs_place (m : Matcher) (tool : Nat) (rest : Text) :
    (m.enterArgs g tool rest).partialBuf = rest ∧ (m.enterArgs g tool rest).state = .inArgs := by
  unfold Matcher.enterArgs
  split
  · exact ⟨rfl, rfl⟩
  obtain ⟨_, _, hm, -⟩ := Matcher.updateArgsBraceState_eq g rest
    (Matcher.updateNgramHistory g
      { m with partialBuf := rest, state := .inArgs, currentTool := some tool, args := .start } rest)
  rw [hm]
  exact ⟨rfl, rfl⟩

theorem transitionOnce_advanced (h : m.transitionOnce g = .advanced m') :
    (∃ before rest, m.state = .out ∧ cutAt openMarker m.partialBuf = some (before, rest) ∧
      m' = { m with partialBuf := rest, state := .afterOpen }) ∨
    (∃ tool rest, m.state = .afterOpen ∧ matchHeader g.tools 0 m.partialBuf = some (tool, rest) ∧
      m' = m.enterArgs g tool rest) ∨
    ∃ before rest, m.state = .inArgs ∧ cutAt closeMarker m.partialBuf = some (before, rest) ∧
      m' = Matcher.afterClose rest := by
  unfold Matcher.transitionOnce at h
  split at h <;> rename_i hstate <;> split at h
  all_goals cases h
  all_goals rename_i _ rest hcut
  · exact .inl ⟨_, rest, hstate, hcut, rfl⟩
  · exact .inr (.inl ⟨_, rest, hstate, hcut, rfl⟩)
  · exact .inr (.inr ⟨_, rest, hstate, hcut, rfl⟩)

/-- What a transition that stays does: in the arguments no marker is in the buffer. -/
theorem transitionOnce_stay (h : m.transitionOnce g = .stay m') :
    (m.state ≠ .inArgs ∧ m'.state = m.state ∧ m'.ngramHistory = m.ngramHistory) ∨
    m.state = .inArgs ∧ cutAt closeMarker m.partialBuf = none ∧
      m' = { m with partialBuf := keepLast (closeMarker.length - 1) m.partialBuf } := by
  unfold Matcher.transitionOnce at h
  split at h <;> rename_i hstate <;> split at h
  all_goals cases h
  · exact .inl ⟨by simp [hstate], rfl, rfl⟩
  · exact .inl ⟨by simp [hstate], rfl, rfl⟩
  · rename_i hcut
    exact .inr ⟨hstate, hcut, rfl⟩

/-- A transition that moves on takes a marker or a header off the buffer. -/
theorem advanced_buf (h : m.transitionOnce g = .advanced m') : ∃ pre, pre ≠ [] ∧ m.partialBuf = pre ++ m'.partialBuf ∧
    (m'.state = .afterOpen → openMarker <:+ pre) := by
  obtain ⟨before, rest, -, hcut, rfl⟩ | ⟨tool, rest, -, hmatch, rfl⟩ | ⟨before, rest, -, hcut, rfl⟩ :=
    transitionOnce_advanced g h
  · exact ⟨before ++ openMarker, by simp [openMarker, ascii], (cutAt_some hcut).1, fun _ => suffix_append _ _⟩
  · obtain ⟨t, -, hbuf⟩ := matchHeader_some hmatch
    obtain ⟨hrest, hstate⟩ := m.enterArgs_place g tool rest
    exact ⟨t.header, by simp [ToolSchema.header, ascii], by rw [hrest, hbuf], fun h => nomatch hstate.symm.trans h⟩
  · exact ⟨before ++ closeMarker, by simp [closeMarker, ascii], (cutAt_some hcut).1, nofun⟩

theorem advanced_length (h : m.transitionOnce g = .advanced m') : m'.partialBuf.length < m.partialBuf.length := by
  obtain ⟨pre, hpre, hbuf, -⟩ := advanced_buf g h
  have := length_pos_iff.2 hpre
  rw [hbuf, length_append]
  omega

/-- The fuel of `advance` reaches the transition that stays. -/
theorem settle_stays : ∀ (fuel : Nat) (m : Matcher), m.partialBuf.length < fuel →
    ∃ m₀ : Matcher, m₀.transitionOnce g = .stay (settle g fuel m)
  | 0, _, h => by omega
  | fuel + 1, m, h => by
    rw [settle]
    cases hm : m.transitionOnce g with
    | stay m' => exact ⟨m, hm⟩
    | advanced m' =>
      have hlen := advanced_length g hm
      exact settle_stays fuel m' (by omega)

end

/-! ## The watched run -/

/-- An exit from the arguments. -/
structure Exit where
  tool : Option Nat
  /-- The body before the close marker. -/
  before : Text
  /-- The repetition guard had tripped in the body when the token was allowed. -/
  tripped : Bool
deriving DecidableEq

/-- A matcher, with what its buffer has let go of the body it is in. -/
structure Watched where
  m : Matcher
  gone : Text
  tripped : Bool
deriving DecidableEq

def Watched.fresh : Watched := ⟨.fresh, [], false⟩

def Watched.body (w : Watched) : Text := w.gone ++ w.m.partialBuf

section

variable (g : CompiledGrammar)

/-- After a transition that stays at `m'`. -/
def Watched.stayed (w : Watched) (m' : Matcher) : Watched :=
  { w with
    m := m'
    gone := if w.m.state = .inArgs then w.gone ++ w.m.partialBuf.take (w.m.partialBuf.length - m'.partialBuf.length)
      else w.gone }

/-- The exit, if a transition that moves on is one. -/
def Watched.exit (w : Watched) : List Exit :=
  match w.m.state with
  | .inArgs =>
    let before := ((cutAt closeMarker w.m.partialBuf).map Prod.fst).getD []
    [⟨w.m.currentTool, w.gone ++ before, w.tripped⟩]
  | _ => []

def Watched.settle : Nat → Watched → Watched × List Exit
  | 0, w => (w, [])
  | fuel + 1, w =>
    match w.m.transitionOnce g with
    | .stay m' => (w.stayed m', [])
    | .advanced m' =>
      let r := Watched.settle fuel ⟨m', [], false⟩
      (r.1, w.exit ++ r.2)

def Watched.advance (w : Watched) (text : Text) : Watched × List Exit :=
  if text.isEmpty then (w, [])
  else
    let m := w.m.feed g text
    Watched.settle g (m.partialBuf.length + 1) ⟨m, w.gone, w.m.attractorDetected⟩

/-- Watching does not change the matcher. -/
theorem Watched.settle_m : ∀ (fuel : Nat) (w : Watched), (w.settle g fuel).1.m = Calls.settle g fuel w.m
  | 0, _ => rfl
  | fuel + 1, w => by
    rw [Watched.settle, Calls.settle]
    cases w.m.transitionOnce g with
    | stay m' => rfl
    | advanced m' => exact Watched.settle_m fuel ⟨m', [], false⟩

theorem Watched.advance_m (w : Watched) (text : Text) : (w.advance g text).1.m = w.m.advance g text := by
  unfold Watched.advance Matcher.advance
  split
  · rfl
  · exact Watched.settle_m g _ _

/-! ## The invariant -/

/-- The outer object is closed and every required field is named. -/
def Closed (tool : Option Nat) (before : Text) : Prop :=
  (ArgsScan.start.run before).depth < 0 ∧ ∀ name ∈ g.requiredOf tool, quoted name <:+: before

/-- The place after the text is in no string. -/
def Outside (before : Text) : Prop := (ArgsScan.start.run before).inString = false

/-- In the arguments, between two transitions. -/
structure InBody (w : Watched) : Prop where
  args : w.m.args = ArgsScan.start.run w.body
  history : w.m.ngramHistory <:+ w.body
  /-- The marker in the buffer, if one is there, may end the body. -/
  leaves : w.tripped = false → ∀ before rest, cutAt closeMarker w.m.partialBuf = some (before, rest) →
    Outside (w.gone ++ before) → Closed g w.m.currentTool (w.gone ++ before)
  /-- So may the start of one at the end of the body. -/
  started : cutAt closeMarker w.m.partialBuf = none → w.m.attractorDetected = false → ∀ a b, w.body = a ++ b →
    b ≠ [] → b <+: closeMarker → Outside a → Closed g w.m.currentTool a

/-- Outside the arguments nothing of a body is kept. -/
structure Between (w : Watched) : Prop where
  body : w.m.state = .inArgs → InBody g w
  history : w.m.state ≠ .inArgs → w.m.ngramHistory = []

structure AtRest (w : Watched) : Prop extends Between g w where
  noMarker : w.m.state = .inArgs → cutAt closeMarker w.m.partialBuf = none

/-! ## One token -/

/-- What stands right behind a header: behind the marker and a header in the buffer, or behind a header at its start if the
marker was taken before. -/
def CompiledGrammar.carried (state : State) (buf : Text) : List Text :=
  ((if state = .afterOpen then [buf] else []) ++ buf.tails.filterMap (stripStart openMarker)).flatMap fun s =>
    g.tools.filterMap fun t => stripStart t.header s

theorem mem_carried {state : State} {buf rest : Text} : rest ∈ g.carried state buf ↔
    ∃ t ∈ g.tools, state = .afterOpen ∧ buf = t.header ++ rest ∨ openMarker ++ (t.header ++ rest) <:+ buf := by
  simp only [CompiledGrammar.carried, mem_flatMap, mem_append, mem_filterMap, mem_tails, stripStart_eq_some]
  constructor
  · rintro ⟨s, hs | ⟨_, hsuffix, rfl⟩, t, ht, rfl⟩
    · split at hs
      · rename_i hstate
        exact ⟨t, ht, .inl ⟨hstate, (mem_singleton.1 hs).symm⟩⟩
      · cases hs
    · exact ⟨t, ht, .inr hsuffix⟩
  · rintro ⟨t, ht, ⟨hstate, rfl⟩ | hsuffix⟩
    · exact ⟨_, .inl (by rw [if_pos hstate]; exact mem_singleton_self _), t, ht, rfl⟩
    · exact ⟨_, .inr ⟨_, hsuffix, rfl⟩, t, ht, rfl⟩

theorem carried_advanced (h : m.transitionOnce g = .advanced m') {rest : Text}
    (hrest : rest ∈ g.carried m'.state m'.partialBuf) : rest ∈ g.carried m.state m.partialBuf := by
  obtain ⟨pre, -, hbuf, hopen⟩ := advanced_buf g h
  obtain ⟨t, ht, ⟨hstate, heq⟩ | hsuffix⟩ := (mem_carried g).1 hrest
  · obtain ⟨before, rfl⟩ := hopen hstate
    refine (mem_carried g).2 ⟨t, ht, .inr ⟨before, ?_⟩⟩
    rw [hbuf, heq, append_assoc]
  · exact (mem_carried g).2 ⟨t, ht, .inr (hsuffix.trans ⟨pre, hbuf.symm⟩)⟩

/-- What a token has to meet besides being allowed: with it, no close marker begins in what stands right behind a header, and
once the outer object is closed it is held to the check made while it is open. -/
structure Restrained (m : Matcher) (text : Text) : Prop where
  header : ∀ rest ∈ g.carried m.state (m.partialBuf ++ text), beginsMarker .start rest = false
  reopened : m.state = .inArgs → m.args.depth < 0 → outerClosedBeforeMarker m.args text = true

instance (m : Matcher) (text : Text) : Decidable (Restrained g m text) :=
  decidable_of_iff (_ ∧ _) ⟨fun h => ⟨h.1, h.2⟩, fun h => ⟨h.header, h.reopened⟩⟩

variable {g}

/-- **A marker an allowed token begins in the body begins where the call may close.** -/
theorem closed_of_allowed {t : Text} (hstate : w.m.state = .inArgs) (hb : InBody g w)
    (hflag : w.m.attractorDetected = false) (hallowed : w.m.isTokenAllowed g (t ++ r) = true)
    (hopen : w.m.args.depth < 0 → outerClosedBeforeMarker w.m.args (t ++ r) = true)
    (hr : StartsMarker r) (hfirst : ∀ u v, t = u ++ v → v ≠ [] → ¬ closeMarker <+: v ++ r)
    (hout : Outside (w.body ++ t)) : Closed g w.m.currentTool (w.body ++ t) := by
  have hne : (t ++ r).isEmpty = false := by simp [hr.1]
  have htouch : touchesCloseMarker (w.m.partialBuf ++ (t ++ r)) = true :=
    touches_of_starts (append_assoc _ _ _).symm hr
  have hrun : ArgsScan.start.run (w.body ++ t) = w.m.args.run t := by rw [ArgsScan.run_append, hb.args]
  -- Free or not, the required fields are there; the simulation was run, by the gate or by assumption.
  have hgate : w.m.requiredFieldsSatisfied g = true ∧ outerClosedBeforeMarker w.m.args (t ++ r) = true := by
    unfold Matcher.isTokenAllowed Matcher.isFree at hallowed
    rw [hne, hstate] at hallowed
    cases hreq : w.m.requiredFieldsSatisfied g with
    | false => simp [hreq, hflag, htouch] at hallowed
    | true =>
      refine ⟨rfl, ?_⟩
      by_cases hdepth : w.m.args.depth < 0
      · exact hopen hdepth
      · have hdepth' : 0 ≤ w.m.args.depth := by omega
        simpa [hreq, hflag, htouch, hdepth'] using hallowed
  refine ⟨?_, fun name hname => ?_⟩
  · rw [hrun]
    refine outerClosed_at hr w.m.args t hgate.2 ?_ hfirst
    rw [← hrun]
    exact hout
  · have hin := infix_of_cutAt_isSome (all_eq_true.1 hgate.1 name hname)
    exact (hin.trans hb.history.isInfix).trans (prefix_append w.body t).isInfix

theorem split_cases {a b c d : Text} (h : a ++ b = c ++ d) :
    (∃ x, x ≠ [] ∧ a = c ++ x ∧ d = x ++ b) ∨ ∃ x, c = a ++ x ∧ b = x ++ d := by
  obtain ⟨x, hx, hb⟩ | ⟨x, hx, hd⟩ := append_eq_append_iff.1 h
  · exact .inr ⟨x, hx, hb⟩
  · by_cases hne : x = []
    · subst hne
      exact .inr ⟨[], by simpa using hx.symm, by simpa using hd.symm⟩
    · exact .inl ⟨x, hne, hx, hd⟩

/-- **A token taken in keeps the body's invariant.** -/
theorem InBody.feed {text : Text} (hstate : w.m.state = .inArgs) (hb : InBody g w)
    (hno : cutAt closeMarker w.m.partialBuf = none) (hallowed : w.m.isTokenAllowed g text = true)
    (hopen : w.m.args.depth < 0 → outerClosedBeforeMarker w.m.args text = true) :
    InBody g ⟨w.m.feed g text, w.gone, w.m.attractorDetected⟩ := by
  obtain ⟨buf, flag, hm, hflag⟩ := Matcher.feed_inArgs g hstate text
  have hbody : Watched.body ⟨w.m.feed g text, w.gone, w.m.attractorDetected⟩ = w.body ++ text := by
    rw [hm]
    exact (append_assoc _ _ _).symm
  constructor
  · rw [hbody, hm, ArgsScan.run_append, ← hb.args]
  · rw [hbody, hm]
    obtain ⟨p, hp⟩ := hb.history
    refine (keepLast_suffix _ _).trans ⟨p, ?_⟩
    rw [← hp, append_assoc]
  · rw [hm]
    intro htripped before rest hcut hout
    obtain ⟨hs, hfirst⟩ := cutAt_some hcut
    rw [append_assoc] at hs
    obtain ⟨x, hx, hpart, hrest⟩ | ⟨x, hbefore, htext⟩ := split_cases hs
    · -- The marker began in an earlier token.
      have hxp : x <+: closeMarker := by
        refine (List.prefix_or_prefix_of_prefix (prefix_append x text)
          (hrest ▸ prefix_append closeMarker rest)).resolve_right fun hfull => ?_
        exact cutAt_none hno before x hpart hfull
      exact hb.started hno htripped (w.gone ++ before) x
        (by unfold Watched.body; rw [hpart, append_assoc]) hx hxp hout
    · have hbody' : w.gone ++ before = w.body ++ x := by
        unfold Watched.body
        rw [hbefore, append_assoc]
      rw [hbody'] at hout ⊢
      subst htext
      refine closed_of_allowed hstate hb htripped hallowed hopen ⟨by simp [closeMarker, ascii], .inl ⟨rest, rfl⟩⟩ ?_ hout
      intro u v huv hv hp
      refine hfirst (w.m.partialBuf ++ u) v (by rw [hbefore, huv, append_assoc]) hv ?_
      rwa [append_assoc]
  · rw [hbody, hm]
    intro hcut hflag' a b hab hbne hbp hout
    have hold : w.m.attractorDetected = false := by
      cases hw : w.m.attractorDetected with
      | false => rfl
      | true => exact absurd ((hflag hw).symm.trans hflag') (by decide)
    obtain ⟨x, hx, hpart, hrest⟩ | ⟨x, ha, htext⟩ := split_cases hab
    · refine hb.started hno hold a x hpart hx ?_ hout
      exact (hrest ▸ prefix_append x text).trans hbp
    subst ha htext
    refine closed_of_allowed hstate hb hold hallowed hopen ⟨hbne, .inr hbp⟩ ?_ hout
    intro u v huv hv hp
    refine cutAt_none hcut (w.m.partialBuf ++ u) (v ++ b) ?_ hp
    rw [huv, append_assoc, append_assoc]

/-- A header's token that begins no marker starts a body that keeps the invariant. -/
theorem InBody.enter {tool : Nat} {rest : Text} (hist : m.ngramHistory = [])
    (hrest : beginsMarker .start rest = false) : InBody g ⟨m.enterArgs g tool rest, [], false⟩ := by
  obtain ⟨buf, flag, hm⟩ := Matcher.enterArgs_eq g hist tool rest
  have hnone : ∀ a r, rest = a ++ r → StartsMarker r → ¬ Outside a := by
    intro a r hr hs hout
    rw [hr, beginsMarker_at hs .start a hout] at hrest
    exact nomatch hrest
  rw [hm]
  constructor
  · rfl
  · exact keepLast_suffix _ _
  · intro _ before after hcut hout
    have hs := (cutAt_some hcut).1
    rw [append_assoc] at hs
    exact absurd hout (hnone before _ hs ⟨by simp [closeMarker, ascii], .inl ⟨after, rfl⟩⟩)
  · intro _ _ a b hab hbne hbp hout
    exact absurd hout (hnone a b hab ⟨hbne, .inr hbp⟩)

theorem InBody.stay (hstate : w.m.state = .inArgs) (hb : InBody g w)
    (hno : cutAt closeMarker w.m.partialBuf = none) {kept : Text} (hkept : kept <:+ w.m.partialBuf)
    (hm : m' = { w.m with partialBuf := kept }) :
    InBody g (w.stayed m') ∧ cutAt closeMarker m'.partialBuf = none := by
  subst hm
  obtain ⟨p, hp⟩ := hkept
  have hno' : cutAt closeMarker kept = none := by
    cases hcut : cutAt closeMarker kept with
    | none => rfl
    | some r =>
      refine absurd (prefix_append closeMarker r.2) (cutAt_none hno (p ++ r.1) _ ?_)
      rw [← hp, (cutAt_some hcut).1]
      simp only [append_assoc]
  have hbody : (w.stayed { w.m with partialBuf := kept }).body = w.body := by
    unfold Watched.stayed Watched.body
    dsimp only
    rw [if_pos hstate, ← hp, length_append, Nat.add_sub_cancel, take_left, append_assoc]
  refine ⟨⟨?_, ?_, ?_, ?_⟩, hno'⟩
  · rw [hbody]
    exact hb.args
  · rw [hbody]
    exact hb.history
  · intro _ before rest hcut
    exact nomatch hno'.symm.trans hcut
  · rw [hbody]
    exact fun _ => hb.started hno

/-- An exit that closes the call. -/
def Exit.Good (g : CompiledGrammar) (e : Exit) : Prop :=
  e.tripped = false → Outside e.before → Closed g e.tool e.before

/-- **The transitions of one token keep the invariant, and every exit among them closes the call.** -/
theorem settle_atRest : ∀ (fuel : Nat) (w : Watched), w.m.partialBuf.length < fuel → Between g w →
    (∀ rest ∈ g.carried w.m.state w.m.partialBuf, beginsMarker .start rest = false) →
    AtRest g (w.settle g fuel).1 ∧ ∀ e ∈ (w.settle g fuel).2, e.Good g
  | 0, _, hfuel, _, _ => by omega
  | fuel + 1, w, hfuel, hw, hent => by
    rw [Watched.settle]
    cases hm : w.m.transitionOnce g with
    | stay m' =>
      refine ⟨?_, nofun⟩
      obtain ⟨hstate, hsame, hhist⟩ | ⟨hstate, hno, hm'⟩ := transitionOnce_stay g hm
      · have hstate' : m'.state ≠ .inArgs := hsame ▸ hstate
        exact ⟨⟨fun h => absurd h hstate', fun _ => hhist.trans (hw.history hstate)⟩, fun h => absurd h hstate'⟩
      · obtain ⟨hb, hno'⟩ := (hw.body hstate).stay hstate hno (keepLast_suffix _ _) hm'
        refine ⟨⟨fun _ => hb, fun h => absurd ?_ h⟩, fun _ => hno'⟩
        rw [hm']
        exact hstate
    | advanced m' =>
      simp only
      have hlen := advanced_length g hm
      have hnext : Between g ⟨m', [], false⟩ ∧ ∀ e ∈ w.exit, e.Good g := by
        obtain ⟨before, rest, hstate, -, hm'⟩ | ⟨tool, rest, hstate, hmatch, hm'⟩ | ⟨before, rest, hstate, hcut, hm'⟩ :=
          transitionOnce_advanced g hm
        · subst hm'
          refine ⟨⟨nofun, fun _ => hw.history (by simp [hstate])⟩, fun e he => ?_⟩
          simp [Watched.exit, hstate] at he
        · have hhist := hw.history (by simp [hstate])
          have hrest : beginsMarker .start rest = false := by
            obtain ⟨t, ht, hbuf⟩ := matchHeader_some hmatch
            exact hent rest ((mem_carried g).2 ⟨t, ht, .inl ⟨hstate, hbuf⟩⟩)
          obtain ⟨buf, flag, henter⟩ := Matcher.enterArgs_eq g hhist tool rest
          refine ⟨⟨fun _ => hm' ▸ InBody.enter hhist hrest, fun h => absurd ?_ h⟩, fun e he => ?_⟩
          · rw [hm', henter]
          · simp [Watched.exit, hstate] at he
        · subst hm'
          refine ⟨⟨nofun, fun _ => rfl⟩, fun e he => ?_⟩
          simp only [Watched.exit, hstate, hcut, Option.map_some, Option.getD_some, mem_singleton] at he
          subst he
          exact fun htripped => (hw.body hstate).leaves htripped before rest hcut
      obtain ⟨hrest, hexits⟩ := settle_atRest fuel ⟨m', [], false⟩ (by simpa using by omega) hnext.1
        (fun rest hmem => hent rest (carried_advanced g hm hmem))
      exact ⟨hrest, fun e he => (mem_append.1 he).elim (hnext.2 e) (hexits e)⟩

/-- **One allowed token.** -/
theorem advance_atRest {text : Text} (hw : AtRest g w) (hallowed : w.m.isTokenAllowed g text = true)
    (hc : Restrained g w.m text) : AtRest g (w.advance g text).1 ∧ ∀ e ∈ (w.advance g text).2, e.Good g := by
  unfold Watched.advance
  split
  · exact ⟨hw, nofun⟩
  · obtain ⟨hbuf, hsame⟩ := w.m.feed_place g text
    refine settle_atRest _ _ (Nat.lt_succ_self _) ?_ (by rw [hbuf, hsame]; exact hc.header)
    by_cases hstate : w.m.state = .inArgs
    · refine ⟨fun _ => (hw.body hstate).feed hstate (hw.noMarker hstate) hallowed (hc.reopened hstate), fun h => ?_⟩
      exact absurd (hsame.trans hstate) h
    · have hm := Matcher.feed_other g hstate text
      refine ⟨fun h => absurd ?_ hstate, fun _ => ?_⟩
      · rwa [hm] at h
      · rw [hm]
        exact hw.history hstate

/-! ## The run -/

variable (g)

/-- One token is committed under watch; the exits of the run are kept. -/
def commit (text : Text) (s : Watched × List Exit) : Watched × List Exit :=
  let r := s.1.advance g text
  (r.1, s.2 ++ r.2)

def exits (tokens : List Text) : List Exit := (runAll (commit g) tokens (.fresh, [])).2

/-- Every token is allowed when it is committed. -/
def Masked (tokens : List Text) : Prop :=
  Along (fun text m => m.advance g text) (fun text m => m.isTokenAllowed g text = true) tokens Matcher.fresh

instance (tokens : List Text) : Decidable (Masked g tokens) := Along.decidable _ _ tokens _

/-- Every token is allowed and restrained when it is committed. -/
def MaskedRestrained (tokens : List Text) : Prop :=
  Along (fun text m => m.advance g text) (fun text m => m.isTokenAllowed g text = true ∧ Restrained g m text) tokens
    Matcher.fresh

instance (tokens : List Text) : Decidable (MaskedRestrained g tokens) := Along.decidable _ _ tokens _

/-- **A masked run closes its calls.**  For every grammar and every run of tokens, each allowed when committed, none of which
begins a close marker in the text it carries past a header or, once the outer object is closed, begins one where it is open
again: wherever the arguments end at a marker that begins outside strings, the guard not tripped, the outer object is closed
and every required field of the tool is named. -/
theorem masked_call_closes (tokens : List Text) (h : MaskedRestrained g tokens) (e : Exit) (he : e ∈ exits g tokens)
    (htripped : e.tripped = false) (hout : Outside e.before) :
    (ArgsScan.start.run e.before).depth < 0 ∧ ∀ name ∈ g.requiredOf e.tool, quoted name <:+: e.before := by
  have hstep : ∀ (text : Text) (s : Watched × List Exit),
      (s.1.m.isTokenAllowed g text = true ∧ Restrained g s.1.m text) →
      (AtRest g s.1 ∧ ∀ e ∈ s.2, e.Good g) →
      AtRest g (commit g text s).1 ∧ ∀ e ∈ (commit g text s).2, e.Good g := by
    intro text s hc hs
    obtain ⟨hrest, hexits⟩ := advance_atRest hs.1 hc.1 hc.2
    exact ⟨hrest, fun e he => (mem_append.1 he).elim (hs.2 e) (hexits e)⟩
  -- the watcher sees the matcher's own run
  have hwatched := Along.lift (fun text (m : Matcher) => m.advance g text) (commit g) (fun s => s.1.m)
    (fun text s => s.1.advance_m g text) tokens (.fresh, []) h
  have hrun := runAll_inv hstep tokens _ hwatched ⟨⟨⟨nofun, fun _ => rfl⟩, nofun⟩, nofun⟩
  exact hrun.2 e he htripped hout

end

/-! ## A tool with one required field -/

def bash : CompiledGrammar := ⟨[⟨ascii "bash", [ascii "command"]⟩], .default⟩

def bashHeader : Text := ascii "<tool_call>\n\x7b\"name\": \"bash\", \"arguments\": "

/-- The field's name and its value, in two tokens: the name has to be there before the object may be closed. -/
def bashName : Text := ascii "\x7b\"command\": "

def bashValue : Text := ascii "\"ls\"\x7d\x7d"

def bashCall : List Text := [bashHeader, bashName, bashValue, closeMarker]

theorem masked_call_closes_bash : ⟨some 0, bashName ++ bashValue, false⟩ ∈ exits bash bashCall ∧
    (ArgsScan.start.run (bashName ++ bashValue)).depth < 0 ∧
    ∀ name ∈ bash.requiredOf (some 0), quoted name <:+: bashName ++ bashValue := by
  have hleft : ⟨some 0, bashName ++ bashValue, false⟩ ∈ exits bash bashCall := by decide +kernel
  have hrun : MaskedRestrained bash bashCall := by decide +kernel
  exact ⟨hleft, masked_call_closes bash bashCall hrun _ hleft rfl (by unfold Outside; decide +kernel)⟩

/-- A call whose outer object is opened again. -/
def bashReopened : List Text := [bashHeader, bashName, bashValue, openBrace :: closeMarker]

/-- **A masked run can leave a call open**: the token that completes the header may carry the close marker, with an empty
body; and after the outer object is closed every token is free, so it may be opened again and the call ended there. -/
theorem masked_call_left_open :
    (Masked bash [bashHeader ++ closeMarker] ∧ ⟨some 0, [], false⟩ ∈ exits bash [bashHeader ++ closeMarker] ∧
      Outside [] ∧ ¬ (ArgsScan.start.run []).depth < 0 ∧ ¬ ∀ name ∈ bash.requiredOf (some 0), quoted name <:+: []) ∧
    Masked bash bashReopened ∧ ⟨some 0, bashName ++ bashValue ++ [openBrace], false⟩ ∈ exits bash bashReopened ∧
      Outside (bashName ++ bashValue ++ [openBrace]) ∧
      ¬ (ArgsScan.start.run (bashName ++ bashValue ++ [openBrace])).depth < 0 := by
  unfold Outside
  decide +kernel

end Hipfire.Calls

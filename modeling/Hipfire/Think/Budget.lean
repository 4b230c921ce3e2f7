import Hipfire.Base.Run
/-!
# Budget — the budget of tokens inside a think span

`observe` counts the committed tokens that leave the stream inside a span and asks for the close when the count reaches
the budget; `windowCap` tells a speculative producer how many tokens it may commit before that can happen.  `room` is the
number of `Continue` answers a budget is certain of, one less than the cap.
-/
namespace Hipfire.Think

inductive ThinkBudgetStep
  | continue
  | forceClose
  | exhausted
  deriving DecidableEq, Repr

structure ThinkBudget where
  max : Nat
  count : Nat
  prevInThink : Bool
  forceClosed : Bool
  /-- Queued close tokens still to be observed. -/
  closing : Nat
  deriving DecidableEq, Repr

namespace ThinkBudget

def new (max : Nat) : ThinkBudget := ⟨max, 0, false, false, 0⟩

def enabled (b : ThinkBudget) : Bool := 0 < b.max

/-- The count after a token that leaves the stream in `inThink`: entering a span starts it over. -/
def counted (b : ThinkBudget) (inThink : Bool) : Nat :=
  let count := if inThink && !b.prevInThink then 0 else b.count
  if inThink then count + 1 else count

def observe (b : ThinkBudget) (inThink : Bool) : ThinkBudget × ThinkBudgetStep :=
  if b.max = 0 then (b, .continue)
  else if 0 < b.closing then ({ b with closing := b.closing - 1, prevInThink := inThink }, .continue)
  else
    let b' := { b with count := b.counted inThink, prevInThink := inThink }
    if !inThink || b'.count < b.max then (b', .continue)
    else if b.forceClosed then (b', .exhausted)
    else ({ b' with forceClosed := true }, .forceClose)

/-- `closing`: the caller queued `tokens` close tokens. -/
def setClosing (b : ThinkBudget) (tokens : Nat) : ThinkBudget := { b with closing := tokens }

/-- A sum of `usize`s while close tokens are queued; it is at most `closing + max`. -/
def windowCap (b : ThinkBudget) (inThink : Bool) : Option Nat :=
  if b.max = 0 then none
  else if 0 < b.closing then some (Max.max (b.closing + Max.max (b.max - b.count) 1) 1)
  else if inThink then some (Max.max (b.max - b.count) 1)
  else none

/-- What `observe` returns on the flags to come. -/
def answers (b : ThinkBudget) (flags : List Bool) : List ThinkBudgetStep := (runSteps observe b flags).2

theorem answers_cons (b : ThinkBudget) (f : Bool) (flags : List Bool) :
    b.answers (f :: flags) = (b.observe f).2 :: (b.observe f).1.answers flags := rfl

/-! ## What one call can do -/

/-- What `observe` can do on a budget that is set. -/
inductive Observed (b : ThinkBudget) (f : Bool) : ThinkBudget × ThinkBudgetStep → Prop
  | drained : 0 < b.closing → Observed b f ({ b with closing := b.closing - 1, prevInThink := f }, .continue)
  | counts : b.closing = 0 → f = false ∨ b.counted f < b.max →
      Observed b f ({ b with count := b.counted f, prevInThink := f }, .continue)
  | exhausted : b.closing = 0 → f = true → b.max ≤ b.counted f → b.forceClosed = true →
      Observed b f ({ b with count := b.counted f, prevInThink := f }, .exhausted)
  | forced : b.closing = 0 → f = true → b.max ≤ b.counted f → b.forceClosed = false →
      Observed b f ({ b with count := b.counted f, prevInThink := f, forceClosed := true }, .forceClose)

variable {b : ThinkBudget}

theorem observed (hb : 0 < b.max) (f : Bool) : Observed b f (b.observe f) := by
  unfold observe
  rw [if_neg (by omega)]
  split
  · exact .drained ‹_›
  have hc : b.closing = 0 := by omega
  dsimp only
  split
  · rename_i h
    simp only [Bool.or_eq_true, Bool.not_eq_true', decide_eq_true_eq] at h
    exact .counts hc h
  · rename_i h
    simp only [Bool.or_eq_true, Bool.not_eq_true', decide_eq_true_eq, not_or, Bool.not_eq_false, Nat.not_lt] at h
    split
    · exact .exhausted hc h.1 h.2 ‹_›
    · exact .forced hc h.1 h.2 (by simpa using ‹¬b.forceClosed = true›)

theorem counted_le (b : ThinkBudget) (f : Bool) : b.counted f ≤ b.count + 1 := by
  unfold counted
  dsimp only
  split <;> split <;> omega

theorem max_observe (b : ThinkBudget) (f : Bool) : (b.observe f).1.max = b.max := by
  unfold observe
  dsimp only
  repeat' split
  all_goals rfl

/-! ## The room of a budget -/

/-- The answers that are `Continue` whatever the tokens are. -/
def room (b : ThinkBudget) : Nat := b.closing + (b.max - b.count - 1)

/-- While there is room the answer is `Continue`, and one token takes at most one of it. -/
theorem room_observe (hb : 0 < b.max) (hr : 0 < b.room) (f : Bool) :
    (b.observe f).2 = .continue ∧ b.room ≤ (b.observe f).1.room + 1 := by
  have hle := counted_le b f
  have ho := observed hb f
  unfold room at hr ⊢
  generalize b.observe f = r at ho ⊢
  rcases ho with hc | ⟨hc, _⟩ | ⟨hc, _, hm, _⟩ | ⟨hc, _, hm, _⟩
  · exact ⟨rfl, by dsimp only; omega⟩
  · exact ⟨rfl, by dsimp only; omega⟩
  · omega
  · omega

/-- **The first `room` answers are `Continue`.** -/
theorem answers_in_room : ∀ (flags : List Bool) {b : ThinkBudget}, 0 < b.max → ∀ {i : Nat} {s : ThinkBudgetStep},
    i < b.room → (b.answers flags)[i]? = some s → s = .continue
  | [], _, _, _, _, _, h => by simp [answers, runSteps] at h
  | f :: flags, b, hb, i, s, hi, h => by
    obtain ⟨hcont, hroom⟩ := room_observe hb (by omega) f
    cases i with
    | zero => rw [← Option.some.inj h, hcont]
    | succ i => exact answers_in_room flags (by rwa [max_observe]) (by omega) h

/-- The next token inside a span does not start the count over, or no count is lost. -/
def Running (b : ThinkBudget) : Prop := b.prevInThink = true ∨ b.count = 0 ∨ 0 < b.closing

/-- **Tokens that stay inside the span use the room up**: the one behind it trips the budget. -/
theorem trips_after_room : ∀ (n : Nat) {b : ThinkBudget}, 0 < b.max → b.Running → b.room = n →
    ∃ s, (b.answers (List.replicate (n + 1) true))[n]? = some s ∧ (s = .forceClose ∨ s = .exhausted)
  | n, b, hb, hrun, hn => by
    have hcount : b.closing = 0 → b.counted true = b.count + 1 := fun hc => by
      unfold counted
      rcases hrun with h | h | h
      · simp [h]
      · simp [h]
      · omega
    have ho := observed hb true
    have hmax := max_observe b true
    rw [List.replicate_succ, answers_cons]
    unfold room at hn
    generalize b.observe true = r at ho hmax ⊢
    cases n with
    | zero =>
      rcases ho with hc | ⟨hc, h | h⟩ | _ | _
      · omega
      · cases h
      · omega
      · exact ⟨_, rfl, .inr rfl⟩
      · exact ⟨_, rfl, .inl rfl⟩
    | succ n =>
      refine trips_after_room n (by rwa [hmax]) ?_ ?_
      · rcases ho with _ | _ | _ | _ <;> exact .inl rfl
      unfold room
      rcases ho with hc | ⟨hc, _⟩ | ⟨hc, _, hm, _⟩ | ⟨hc, _, hm, _⟩
      · dsimp only
        omega
      · dsimp only
        omega
      · omega
      · omega

theorem windowCap_ne_none {f : Bool} : b.windowCap f ≠ none ↔ b.enabled = true ∧ (0 < b.closing ∨ f = true) := by
  unfold windowCap enabled
  rw [decide_eq_true_eq]
  split
  · simp
    omega
  split
  · simp
    omega
  split <;> simp_all
  omega

theorem windowCap_some {f : Bool} {n : Nat} (h : b.windowCap f = some n) :
    0 < b.max ∧ n = b.room + 1 ∧ (0 < b.closing ∨ f = true) := by
  unfold windowCap at h
  unfold room
  split at h
  · cases h
  split at h
  · rename_i hc
    have := Option.some.inj h
    exact ⟨by omega, by omega, .inl hc⟩
  split at h
  · rename_i hf
    have := Option.some.inj h
    exact ⟨by omega, by omega, .inr hf⟩
  · cases h

theorem observe_outside (hb : 0 < b.max) : (b.observe false).2 = .continue := by
  have ho := observed hb false
  generalize b.observe false = r at ho ⊢
  rcases ho with _ | _ | ⟨_, hf, _⟩ | ⟨_, hf, _⟩
  · rfl
  · rfl
  · cases hf
  · cases hf

theorem tripped_inside : ∀ (flags : List Bool) {b : ThinkBudget}, 0 < b.max → ∀ {i : Nat} {s : ThinkBudgetStep},
    (b.answers flags)[i]? = some s → s ≠ .continue → flags[i]? = some true
  | [], _, _, _, _, h, _ => by simp [answers, runSteps] at h
  | f :: flags, b, hb, i, s, h, hs => by
    rw [answers_cons] at h
    cases i with
    | zero =>
      cases f with
      | true => rfl
      | false =>
        rw [List.getElem?_cons_zero, observe_outside hb] at h
        exact absurd (Option.some.inj h).symm hs
    | succ i => exact tripped_inside flags (by rwa [max_observe]) h hs

end ThinkBudget

/-! ## A turn -/

inductive Call
  | observe (inThink : Bool)
  | closing (tokens : Nat)
  deriving DecidableEq, Repr

/-- A budget in use: the stream state after the last observed token and what `observe` returned so far. -/
structure Turn where
  budget : ThinkBudget
  inThink : Bool
  steps : List ThinkBudgetStep

/-- A turn whose prompt may have opened a span. -/
def Turn.start (max : Nat) (started : Bool) : Turn := ⟨.new max, started, []⟩

def Turn.call : Call → Turn → Turn
  | .observe inThink, t => ⟨(t.budget.observe inThink).1, inThink, t.steps ++ [(t.budget.observe inThink).2]⟩
  | .closing tokens, t => { t with budget := t.budget.setClosing tokens }

/-- What every history keeps: a span counted from its start, and at most one `ForceClose`, behind the latch. -/
structure Turn.Sound (t : Turn) : Prop where
  running : 0 < t.budget.max → t.inThink = true → t.budget.prevInThink = true ∨ t.budget.count = 0
  once : t.steps.count .forceClose = if t.budget.forceClosed then 1 else 0

theorem Turn.Sound.start (max : Nat) (started : Bool) : (Turn.start max started).Sound :=
  ⟨fun _ _ => .inr rfl, rfl⟩

theorem Turn.Sound.call {t : Turn} (h : t.Sound) : ∀ c : Call, (t.call c).Sound
  | .closing _ => ⟨h.running, h.once⟩
  | .observe f => by
    by_cases hb : 0 < t.budget.max
    · unfold Turn.call
      dsimp only
      have hcount := h.once
      have ho := ThinkBudget.observed hb f
      generalize t.budget.observe f = r at ho ⊢
      rcases ho with _ | _ | _ | ⟨_, _, _, hlatch⟩
      · exact ⟨fun _ hf => .inl hf, by simpa [List.count_append] using hcount⟩
      · exact ⟨fun _ hf => .inl hf, by simpa [List.count_append] using hcount⟩
      · exact ⟨fun _ hf => .inl hf, by simpa [List.count_append] using hcount⟩
      · refine ⟨fun _ hf => .inl hf, ?_⟩
        rw [hlatch] at hcount
        simpa [List.count_append] using hcount
    · have hoff : t.budget.observe f = (t.budget, .continue) := if_pos (by omega)
      unfold Turn.call
      dsimp only
      rw [hoff]
      exact ⟨fun hb' => absurd hb' hb, by simpa [List.count_append] using h.once⟩

/-- **The window cap is sound and tight.**  After every history of calls, there is a cap exactly
if a budget is set and close tokens are queued or the stream is in a span; a cap of `n` is at least
one and at most `closing + max`, the first `n - 1` answers to come are `Continue` whatever the
tokens are, and some tokens make the `n`-th trip the budget; without a cap a set budget trips at no
token outside a span; and the close is forced at most once. -/
theorem windowCap_sound_tight (max : Nat) (started : Bool) (calls : List Call) :
    let t := runAll Turn.call calls (Turn.start max started)
    (t.budget.windowCap t.inThink ≠ none ↔ t.budget.enabled = true ∧ (0 < t.budget.closing ∨ t.inThink = true)) ∧
    (∀ n, t.budget.windowCap t.inThink = some n → 1 ≤ n ∧ n ≤ t.budget.closing + t.budget.max ∧
      (∀ (flags : List Bool) (i : Nat) (s : ThinkBudgetStep), i < n - 1 → (t.budget.answers flags)[i]? = some s →
        s = .continue) ∧
      ∃ flags s, (t.budget.answers flags)[n - 1]? = some s ∧ (s = .forceClose ∨ s = .exhausted)) ∧
    (t.budget.enabled = true → t.budget.windowCap t.inThink = none →
      ∀ (flags : List Bool) (i : Nat) (s : ThinkBudgetStep), (t.budget.answers flags)[i]? = some s → s ≠ .continue →
        ∃ j ≤ i, flags[j]? = some true) ∧
    t.steps.count .forceClose ≤ 1 := by
  intro t
  have hsound : t.Sound :=
    runAll_history (P := fun _ (t : Turn) => t.Sound) (.start max started) (fun _ c h => h.call c) calls
  refine ⟨ThinkBudget.windowCap_ne_none, fun n hn => ?_, fun hb _ flags i s hi hs => ?_, ?_⟩
  · obtain ⟨hb, rfl, hin⟩ := ThinkBudget.windowCap_some hn
    have hrun : t.budget.Running := by
      rcases hin with hc | hf
      · exact .inr (.inr hc)
      · exact (hsound.running hb hf).imp_right .inl
    have hcap : t.budget.room + 1 ≤ t.budget.closing + t.budget.max := by
      unfold ThinkBudget.room
      omega
    exact ⟨by omega, hcap, fun flags i s hi => ThinkBudget.answers_in_room flags hb hi, _,
      ThinkBudget.trips_after_room _ hb hrun rfl⟩
  · exact ⟨i, Nat.le_refl i, ThinkBudget.tripped_inside flags (by simpa [ThinkBudget.enabled] using hb) hi hs⟩
  · rw [hsound.once]
    split <;> omega

end Hipfire.Think

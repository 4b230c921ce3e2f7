import Hipfire.Terminal.Control
/-!
# Changes — what an operation can do to the records of one key

The records of a key are its batch entry, its tombstone and the active singleton if it is the key's.  `Change` lists every
way an operation, on this key or another, can change them; invariants of a request are proved over this list only.
-/
namespace Hipfire.Terminal

variable {K key : AttemptKey} {s : State}

/-- The records of a key, the transfers issued for it, and the last admission generation. -/
structure View where
  entry : Option BatchRegistryEntry
  handoff : Option SingletonHandoff
  single : Option ActiveTerminalControl
  issued : List SingletonTransfer
  next : Nat

def view (K : AttemptKey) (s : State) : View where
  entry := s.batch.entries.lookup K
  handoff := s.batch.handoffs.lookup K
  single := s.terminal.activeFor K
  issued := s.issued.filter (·.key = K)
  next := s.batch.nextGeneration

/-- A claim for the key, of the three kinds that lead to a terminal frame. -/
def Op.claims (K : AttemptKey) : Op → Bool
  | .claim key | .batchClaim _ key | .claimWire _ key => key = K
  | _ => false

/-- The transaction that an adoption makes active. -/
def adoptee (K : AttemptKey) (h : SingletonHandoff) (t : SingletonTransfer) (n : Nat) : ActiveTerminalControl :=
  let captured := (h.singleton.or t.singleton).getD (freshControl K n)
  if h.abortLatched ∨ t.batchAbortLatched then latch .abort captured else captured

/-- The changes of a key's records, and whether the operation was a counted claim that succeeded. -/
inductive Change (K : AttemptKey) : Op → View → View → Bool → Prop
  | idle {op : Op} {v : View} {n : Nat} (hn : v.next ≤ n) : Change K op v { v with next := n } false
  /-- Another key's transaction became the active one, or the active one was cleared. -/
  | displaced {op : Op} {v : View} : Change K op v { v with single := none } false
  | activated {v : View} (n : Nat) (hh : v.handoff = none) :
      Change K (.activate K) v { v with single := some (freshControl K n) } false
  | cleared {op : Op} {v : View} : Change K op v { v with single := none, handoff := none } false
  | clearedAll {op : Op} {v : View} : Change K op v { v with entry := none, handoff := none } false
  | entryCleared {op : Op} {v : View} : Change K op v { v with entry := none } false
  | announced {v : View} (he : v.entry = none) (hh : v.handoff = none) :
      Change K (.announce K) v { v with entry := some (freshEntry .announced false (v.next + 1)), next := v.next + 1 } false
  | entryMoved {op : Op} {v : View} {e : BatchRegistryEntry} (he : v.entry = some e) (state : BatchRegistryState)
      (deadline : Option Nat) : Change K op v { v with entry := some { e with state, deadline } } false
  | entryAborted {op : Op} {v : View} {e : BatchRegistryEntry} (he : v.entry = some e) :
      Change K op v { v with entry := some { e with abortLatched := true } } false
  | entryCommitted {op : Op} {v : View} {e : BatchRegistryEntry} (he : v.entry = some e) (ha : e.abortLatched = false) :
      Change K op v { v with entry := some { e with commitLatched := true } } false
  | entryClaimed {op : Op} {v : View} {e : BatchRegistryEntry} (he : v.entry = some e) (hc : e.terminalClaimed = false) :
      Change K op v { v with entry := some { e with terminalClaimed := true } } true
  /-- The wire claims the singleton only where the key has no entry. -/
  | singleClaimed {op : Op} {v : View} {a : ActiveTerminalControl} (hs : v.single = some a) (hc : a.terminalClaimed = false)
      (hwire : op = .claim K ∨ v.entry = none) :
      Change K op v { v with single := some { a with terminalClaimed := true } } true
  | singleClaimedAt {op : Op} {v : View} {a : ActiveTerminalControl} (hs : v.single = some a) :
      Change K op v { v with single := some { a with terminalClaimed := true } } false
  | singleAborted {op : Op} {v : View} {a : ActiveTerminalControl} (hs : v.single = some a) :
      Change K op v { v with single := some (latch .abort a) } false
  | singleCommitted {op : Op} {v : View} {a : ActiveTerminalControl} (hs : v.single = some a) :
      Change K op v { v with single := some (latchCommit a) } false
  | singleReady {op : Op} {v : View} {a : ActiveTerminalControl} (hs : v.single = some a) :
      Change K op v { v with single := some { a with ready := true } } false
  | handoffAborted {op : Op} {v : View} {h : SingletonHandoff} (hh : v.handoff = some h) :
      Change K op v { v with
        handoff := some { h with abortLatched := true, singleton := h.singleton.map (latch .abort) }
        single := if h.adopted then v.single.map (latch .abort) else v.single } false
  | handoffCommitted {op : Op} {v : View} {h : SingletonHandoff} (hh : v.handoff = some h) (ha : h.abortLatched = false) :
      Change K op v { v with
        handoff := some { h with singleton := h.singleton.map latchCommit }
        single := if h.adopted then v.single.map latchCommit else v.single } false
  | handedOff {v : View} {e : BatchRegistryEntry} (hh : v.handoff = none) (he : v.entry = some e) :
      Change K (.handoff K e.generation) v { v with
        entry := none
        handoff := some ⟨e.generation, v.single, e.abortLatched, false⟩
        single := none
        issued := v.issued ++ [⟨K, e.generation, e.abortLatched, v.single⟩] } false
  | adopted {op : Op} {v : View} {h : SingletonHandoff} {t : SingletonTransfer} (n : Nat) (hh : v.handoff = some h)
      (ha : h.adopted = false) (ht : t ∈ v.issued) (hadm : h.admission = t.admission) :
      Change K op v { v with
        handoff := some { h with singleton := some (adoptee K h t n), adopted := true }
        single := some (adoptee K h t n) } false
  | toBatch {op : Op} {v : View} {a : ActiveTerminalControl} (hs : v.single = some a) (hc : a.terminalClaimed = false)
      (he : v.entry = none) :
      Change K op v { v with
        entry := some (freshEntry .queued (a.decision == some .abort) (v.next + 1))
        handoff := none
        single := none
        next := v.next + 1 } false

/-! ## The view of an updated state -/

theorem Change.same {op : Op} {v : View} : Change K op v v false := .idle (Nat.le_refl _)

theorem view_terminal (s : State) (t : TerminalControlState) :
    view K { s with terminal := t } = { view K s with single := t.activeFor K } := rfl

theorem view_insert (s : State) (key : AttemptKey) (e : BatchRegistryEntry) :
    view K { s with batch := { s.batch with entries := s.batch.entries.insert key e } } =
      if key = K then { view K s with entry := some e } else view K s := by
  unfold view
  by_cases h : key = K
  · simp [h]
  · simp [h, Ne.symm h]

theorem view_eraseEntry (s : State) (key : AttemptKey) :
    view K (eraseEntry key s) = if key = K then { view K s with entry := none } else view K s := by
  unfold view eraseEntry
  by_cases h : key = K
  · simp [h]
  · simp [h, Ne.symm h]

theorem activeFor_some (a : ActiveTerminalControl) (n : Nat) :
    (⟨some a, n⟩ : TerminalControlState).activeFor K = if a.key = K then some a else none := by
  unfold TerminalControlState.activeFor
  by_cases h : a.key = K <;> simp [Option.filter, h]

variable {a : ActiveTerminalControl} {f : ActiveTerminalControl → ActiveTerminalControl}
  (t : TerminalControlState) (generation : Nat)

theorem activeFor_eq_some {t : TerminalControlState} : t.activeFor K = some a ↔ t.active = some a ∧ a.key = K := by
  unfold TerminalControlState.activeFor
  simp [Option.filter_eq_some_iff]

theorem activeFor_map {t : TerminalControlState} (hf : ∀ a, (f a).key = a.key) (key : AttemptKey) :
    TerminalControlState.activeFor { t with active := t.active.map fun a => if a.key = key then f a else a } K =
      if key = K then (t.activeFor K).map f else t.activeFor K := by
  unfold TerminalControlState.activeFor
  cases t.active with
  | none => simp
  | some a =>
    by_cases hk : key = K
    · subst hk
      by_cases ha : a.key = key <;> simp [Option.filter, ha, hf]
    · by_cases ha : a.key = key
      · simp [Option.filter, ha, hf, hk]
      · simp [Option.filter, ha, hk]

theorem activeFor_other {t : TerminalControlState} (ha : t.activeFor key = some a) (hk : key ≠ K) :
    t.activeFor K = none := by
  obtain ⟨hact, hkey⟩ := activeFor_eq_some.1 ha
  simp only [TerminalControlState.activeFor, hact]
  simp [Option.filter, hkey, hk]

/-- The active transaction is taken away if it is the key's. -/
theorem activeFor_taken (key : AttemptKey) :
    (if (t.activeFor key).isSome then { t with active := none } else t).activeFor K =
      if key = K then none else t.activeFor K := by
  by_cases hk : key = K
  · subst hk
    cases ha : t.activeFor key with
    | none => simpa using ha
    | some a => simp [TerminalControlState.activeFor]
  · cases ha : t.activeFor key with
    | none => simp [hk]
    | some a => simp [TerminalControlState.activeFor, hk, ← activeFor_other ha hk]

variable {b : ActiveTerminalControl}

theorem view_setActive (ha : s.terminal.activeFor key = some a) (hb : b.key = a.key) :
    view K { s with terminal := { s.terminal with active := some b } } =
      if key = K then { view K s with single := some b } else view K s := by
  have hkey := hb.trans (activeFor_eq_some.1 ha).2
  rw [view_terminal, activeFor_some, hkey]
  split
  · rfl
  · rename_i hk
    rw [← activeFor_other ha hk]
    rfl

theorem latch_key (d : Decision) (a : ActiveTerminalControl) : (latch d a).key = a.key := by
  unfold latch
  split <;> rfl

theorem latchCommit_key (a : ActiveTerminalControl) : (latchCommit a).key = a.key := by
  unfold latchCommit
  split
  · exact latch_key _ _
  · rfl

/-! ## Operations change the records as listed -/

/-- A change that is no counted claim. -/
abbrev Moves (K : AttemptKey) (op : Op) (s s' : State) : Prop := Change K op (view K s) (view K s') false

section Ops

variable {op : Op}

theorem change_setActive (ha : s.terminal.activeFor key = some a) (hb : b.key = a.key)
    (hc : key = K → Change K op (view K s) { view K s with single := some b } false) :
    Moves K op s { s with terminal := { s.terminal with active := some b } } := by
  rw [Moves, view_setActive ha hb]
  split
  · exact hc ‹_›
  · exact .same

theorem change_mapActive (hf : ∀ a, (f a).key = a.key)
    (hc : ∀ a, (view K s).single = some a → Change K op (view K s) { view K s with single := some (f a) } false) :
    Moves K op s { s with terminal := { s.terminal with
      active := s.terminal.active.map fun a => if a.key = key then f a else a } } := by
  change Change K op _ { view K s with single := TerminalControlState.activeFor _ K } false
  rw [activeFor_map hf]
  split
  · cases hsingle : s.terminal.activeFor K with
    | none => exact .displaced
    | some a => exact hc a hsingle
  · exact .same

theorem view_activate (hh : s.batch.handoffs.lookup K = none) : view K (activateTerminalControl K s) =
    { view K s with single := some (freshControl K (s.terminal.nextGeneration + 1)) } := by
  rw [activateTerminalControl, if_neg (by simp [hh]), view_terminal, activeFor_some, if_pos]
  rfl

theorem view_announce (he : s.batch.entries.lookup K = none) (hh : s.batch.handoffs.lookup K = none) :
    view K (batchAnnounceTerminal K s).1 =
      { view K s with entry := some (freshEntry .announced false ((view K s).next + 1)), next := (view K s).next + 1 } := by
  rw [batchAnnounceTerminal, if_neg (by simp [he, hh])]
  simp [view, putEntry]

theorem change_claimEntry {e : BatchRegistryEntry} (he : s.batch.entries.lookup key = some e) (scope : Option Nat)
    (hclaims : op.claims K = decide (key = K)) :
    Change K op (view K s) (view K (claimEntry scope key e s).1) (op.claims K && (claimEntry scope key e s).2) := by
  unfold claimEntry
  split
  · rw [Bool.and_false]
    exact .same
  rename_i hcond
  have hc : e.terminalClaimed = false := by
    simp only [not_or, Bool.not_eq_true] at hcond
    exact hcond.2
  rw [view_insert, hclaims, Bool.and_true]
  by_cases hk : key = K
  · subst hk
    rw [if_pos rfl, decide_eq_true rfl]
    exact .entryClaimed he hc
  · rw [if_neg hk, decide_eq_false hk]
    exact .same

theorem change_putHandoff (hf : ∀ a, (f a).key = a.key) {h h' : SingletonHandoff}
    (hc : key = K → Change K op (view K s) { view K s with
      handoff := some h', single := if h.adopted then (view K s).single.map f else (view K s).single } false) :
    Moves K op s { s with
      terminal := if h.adopted then { s.terminal with
        active := s.terminal.active.map fun a => if a.key = key then f a else a } else s.terminal
      batch := { s.batch with handoffs := s.batch.handoffs.insert key h' } } := by
  by_cases hk : key = K
  · convert hc hk using 1
    cases h.adopted <;> simp [view, activeFor_map hf, hk]
  · unfold Moves
    convert Change.same using 1
    cases h.adopted <;> simp [view, activeFor_map hf, hk, Ne.symm hk]

theorem change_controlHandoff {h : SingletonHandoff} (hh : s.batch.handoffs.lookup key = some h) (kind : Kind) :
    Moves K op s (controlHandoff kind key h s) := by
  have hsame : Moves K op s { s with batch := { s.batch with handoffs := s.batch.handoffs.insert key h } } := by
    unfold Moves
    convert Change.same using 1
    by_cases hk : key = K
    · subst hk
      simp [view, hh]
    · simp [view, Ne.symm hk]
  unfold controlHandoff applyHandoffControl
  cases kind with
  | abort =>
    refine change_putHandoff (latch_key .abort) fun hk => ?_
    subst hk
    exact .handoffAborted hh
  | commit =>
    dsimp only
    split
    · exact hsame
    · rename_i ha
      refine change_putHandoff latchCommit_key fun hk => ?_
      subst hk
      exact .handoffCommitted hh (by simpa using ha)
  | other => exact hsame

theorem change_adopt {t : SingletonTransfer} (ht : t ∈ s.issued) : Moves K op s (adoptSingletonTransfer key t s).1 := by
  unfold adoptSingletonTransfer
  split
  · exact .same
  rename_i htk
  split
  · exact .same
  rename_i h hh
  split
  · exact .same
  rename_i hcond
  simp only [not_or, Bool.not_eq_true, ne_eq, not_not] at hcond
  dsimp only
  generalize hn : (if (h.singleton.or t.singleton).isSome then s.terminal.nextGeneration
    else s.terminal.nextGeneration + 1) = n
  split
  · exact .same
  rename_i hkey
  have hkey : ((h.singleton.or t.singleton).getD (freshControl key n)).key = key := by simpa using hkey
  have hakey : (adoptee key h t n).key = key := by
    unfold adoptee
    split
    · rw [latch_key, hkey]
    · exact hkey
  by_cases hk : key = K
  · subst hk
    have : Change key op (view key s) _ false :=
      .adopted n hh hcond.2 (List.mem_filter.2 ⟨ht, by simpa using htk⟩) hcond.1
    convert this using 1
    change view key { s with terminal := ⟨some (adoptee key h t n), n⟩, batch := _ } = _
    simp only [view, activeFor_some, hakey, if_true, AList.lookup_insert]
    rfl
  · convert Change.displaced using 1
    change view K { s with terminal := ⟨some (adoptee key h t n), n⟩, batch := _ } = _
    simp [view, activeFor_some, hakey, hk, Ne.symm hk]

section Keyed

variable (key) (s)

theorem change_activate : Moves K (.activate key) s (activateTerminalControl key s) := by
  cases hh : s.batch.handoffs.lookup key with
  | some h =>
    rw [activateTerminalControl, if_pos (by simp [hh])]
    exact .same
  | none =>
    by_cases hk : key = K
    · subst hk
      rw [Moves, view_activate hh]
      exact .activated _ hh
    · rw [activateTerminalControl, if_neg (by simp [hh])]
      change Change K _ (view K s) { view K s with single := TerminalControlState.activeFor ⟨some _, _⟩ K } false
      rw [activeFor_some, if_neg (by simpa [freshControl] using hk)]
      exact .displaced

theorem change_clear : Moves K op s (clearTerminalControl s) := by
  unfold clearTerminalControl
  cases hact : s.terminal.active with
  | none =>
    have hsame : view K s = { view K s with single := none } := by simp [view, TerminalControlState.activeFor, hact]
    rw [Moves, hsame]
    exact .same
  | some a =>
    dsimp only
    split
    · by_cases hk : a.key = K
      · convert Change.cleared using 1
        simp [view, TerminalControlState.activeFor, hk]
      · convert Change.displaced using 1
        simp [view, TerminalControlState.activeFor, Ne.symm hk]
    · exact .displaced

theorem claimTerminalState_cases (generation : Option Nat) :
    claimTerminalState t key generation = (t, false) ∨ ∃ a, t.activeFor key = some a ∧ a.terminalClaimed = false ∧
      claimTerminalState t key generation = ({ t with active := some { a with terminalClaimed := true } }, true) := by
  unfold claimTerminalState
  cases hact : t.active with
  | none => exact .inl rfl
  | some a =>
    dsimp only
    split
    · exact .inl rfl
    rename_i hk
    split
    · exact .inl rfl
    · rename_i hc
      refine .inr ⟨a, activeFor_eq_some.2 ⟨hact, ?_⟩, by simpa using hc, rfl⟩
      by_contra hne
      exact hk (.inl hne)

theorem change_claimAt : Moves K op s (claimTerminalAtGeneration key generation s).1 := by
  unfold claimTerminalAtGeneration
  rcases claimTerminalState_cases key s.terminal (some generation) with h | ⟨a, ha, -, h⟩
  · rw [h]
    exact .same
  · rw [h]
    refine change_setActive ha rfl fun hk => ?_
    subst hk
    exact .singleClaimedAt ha

theorem change_claimSingle (hwire : op = .claim key ∨ s.batch.entries.lookup key = none)
    (hclaims : op.claims K = decide (key = K)) :
    Change K op (view K s) (view K { s with terminal := (claimTerminalState s.terminal key none).1 })
      (op.claims K && (claimTerminalState s.terminal key none).2) := by
  rcases claimTerminalState_cases key s.terminal none with h | ⟨a, ha, hc, h⟩
  · rw [h, Bool.and_false]
    exact .same
  rw [h]
  rw [view_setActive ha (b := { a with terminalClaimed := true }) rfl, hclaims, Bool.and_true]
  by_cases hk : key = K
  · subst hk
    rw [if_pos rfl, decide_eq_true rfl]
    exact .singleClaimed ha hc hwire
  · rw [if_neg hk, decide_eq_false hk]
    exact .same

theorem change_claim :
    Change K (.claim key) (view K s) (view K (claimTerminal key s).1) (Op.claims K (.claim key) && (claimTerminal key s).2) := by
  unfold claimTerminal
  split
  · rw [Bool.and_false]
    exact .same
  · exact change_claimSingle key s (.inl rfl) rfl

theorem change_batchClaim (scope : Option Nat) :
    Change K (.batchClaim scope key) (view K s) (view K (batchClaimTerminal scope key s).1)
      (Op.claims K (.batchClaim scope key) && (batchClaimTerminal scope key s).2) := by
  unfold batchClaimTerminal
  split
  · rw [Bool.and_false]
    exact .same
  · rename_i e he
    exact change_claimEntry he scope rfl

theorem change_claimWire (scope : Option Nat) :
    Change K (.claimWire scope key) (view K s) (view K (claimWireTerminal scope key s).1)
      (Op.claims K (.claimWire scope key) && (claimWireTerminal scope key s).2) := by
  unfold claimWireTerminal
  split
  · rename_i e he
    exact change_claimEntry he scope rfl
  rename_i hnone
  have hsingle : Change K (.claimWire scope key) (view K s) _ _ := change_claimSingle key s (.inr hnone) rfl
  have hfalse : Change K (.claimWire scope key) (view K s) (view K s) (Op.claims K (.claimWire scope key) && false) := by
    rw [Bool.and_false]
    exact .same
  split
  · split
    · exact hfalse
    · exact hsingle
  · split
    · exact hfalse
    · exact hsingle

theorem change_announce : Moves K (.announce key) s (batchAnnounceTerminal key s).1 := by
  by_cases hfree : (s.batch.entries.lookup key).isSome ∨ (s.batch.handoffs.lookup key).isSome
  · rw [batchAnnounceTerminal, if_pos hfree]
    exact .same
  by_cases hk : key = K
  · subst hk
    simp only [not_or, Option.not_isSome_iff_eq_none] at hfree
    rw [Moves, view_announce hfree.1 hfree.2]
    exact .announced hfree.1 hfree.2
  · rw [batchAnnounceTerminal, if_neg hfree]
    convert Change.idle (Nat.le_succ (view K s).next) using 1
    simp [view, putEntry, Ne.symm hk]

theorem change_updateEntry (f : BatchRegistryEntry → Option BatchRegistryEntry)
    (hf : ∀ e e', (view K s).entry = some e → f e = some e' →
      Change K op (view K s) { view K s with entry := some e' } false) :
    Moves K op s (updateEntry key f s).1 := by
  unfold updateEntry
  split
  · exact .same
  rename_i e' he'
  obtain ⟨e, he, hfe⟩ := Option.bind_eq_some_iff.1 he'
  rw [Moves, view_insert]
  split
  · rename_i hk
    subst hk
    exact hf e e' he hfe
  · exact .same

theorem change_toQueued : Moves K op s (batchTransitionToQueued key generation s).1 := by
  refine change_updateEntry key s _ fun e e' he h => ?_
  split at h
  · cases h
  split at h
  · cases h
    exact .entryMoved he .queued e.deadline
  · cases h
    exact .entryMoved he .queued e.deadline
  · cases h

theorem change_bindActive (owner : LaneTicket) : Moves K op s (batchBindActive key generation owner s).1 := by
  refine change_updateEntry key s _ fun e e' he h => ?_
  split at h
  · cases h
    exact .entryMoved he (.active owner) e.deadline
  · cases h

theorem change_readyWithPending (owner : LaneTicket) (now : Nat) :
    Moves K op s (batchMarkReadyWithPending key generation owner now s).1 := by
  refine change_updateEntry key s _ fun e e' he h => ?_
  split at h
  · cases h
    exact .entryMoved he (.ready owner) (some (now + clientTerminalCommitTimeout))
  · cases h

theorem change_batchReady (now : Nat) : Moves K op s (batchMarkReady key generation now s).1 := by
  refine change_updateEntry key s _ fun e e' he h => ?_
  split at h
  · cases h
  split at h
  · rename_i owner _
    cases h
    exact .entryMoved he (.ready owner) (some (now + clientTerminalCommitTimeout))
  · cases h

theorem change_eraseEntry : Moves K op s (eraseEntry key s) := by
  rw [Moves, view_eraseEntry]
  split
  · exact .entryCleared
  · exact .same

theorem change_batchClearAt : Moves K op s (batchClearTerminalAtGeneration key generation s).1 := by
  unfold batchClearTerminalAtGeneration
  split
  · exact change_eraseEntry key s
  · exact .same

theorem change_clearAll : Moves K op s (batchClearAllTerminals s) := by
  convert Change.clearedAll using 1
  simp [view, batchClearAllTerminals]

theorem change_control (kind : Kind) : Moves K op s (applyTerminalControl kind key s) := by
  unfold applyTerminalControl
  split
  · rename_i h hh
    exact change_controlHandoff hh kind
  · cases kind with
    | other => exact .same
    | abort => exact change_mapActive (latch_key .abort) fun _ => .singleAborted
    | commit => exact change_mapActive latchCommit_key fun _ => .singleCommitted

theorem change_batchControl (kind : Kind) : Moves K op s (batchApplyTerminalControl kind key s) := by
  unfold batchApplyTerminalControl
  split
  · rename_i h hh
    exact change_controlHandoff hh kind
  refine change_updateEntry key s _ fun e e' he h => ?_
  cases kind with
  | abort =>
    cases h
    exact .entryAborted he
  | commit =>
    dsimp only at h
    split at h
    · cases h
    rename_i ha
    split at h
    · cases h
      exact .entryCommitted he (by simpa using ha)
    · cases h
  | other => cases h

theorem change_ready : Moves K op s (markTerminalControlReady key s).1 := by
  unfold markTerminalControlReady
  split
  · exact .same
  · rename_i a ha
    refine change_setActive ha rfl fun hk => ?_
    subst hk
    exact .singleReady ha

theorem change_wait (expired : Bool) : Moves K op s (waitTerminalControlDecision expired key s).1 := by
  unfold waitTerminalControlDecision
  split
  · exact .same
  rename_i a ha
  split
  · exact .same
  rename_i hnone
  split
  · refine change_setActive ha rfl fun hk => ?_
    subst hk
    have : Change key op (view key s) _ false := .singleAborted ha
    unfold latch at this
    rw [hnone] at this
    exact this
  · exact .same

theorem change_handoff : Moves K (.handoff key generation) s (batchHandoffToSingletonAndClear key generation s).1 := by
  unfold batchHandoffToSingletonAndClear
  split
  · exact .same
  rename_i hh
  have hh : s.batch.handoffs.lookup key = none := by simpa using hh
  split
  · exact .same
  rename_i e he
  obtain ⟨hentry, hgen⟩ := Option.filter_eq_some_iff.1 he
  have hgen : e.generation = generation := by simpa using hgen
  subst hgen
  by_cases hk : key = K
  · subst hk
    convert Change.handedOff (v := view key s) hh hentry using 1
    simp [view, activeFor_taken]
  · unfold Moves
    convert Change.same using 1
    simp [view, activeFor_taken, hk, Ne.symm hk]

theorem change_toBatch : Moves K op s (singletonHandoffToBatch key s).1 := by
  unfold singletonHandoffToBatch
  split
  · exact .same
  rename_i a ha
  split
  · exact .same
  rename_i hcond
  simp only [not_or, Bool.not_eq_true] at hcond
  by_cases hk : key = K
  · subst hk
    have he := Option.isNone_iff_eq_none.1 (Option.isSome_eq_false_iff.1 hcond.2.1)
    convert (.toBatch ha hcond.1 he : Change key op (view key s) _ _) using 1
    simp [view, putEntry, TerminalControlState.activeFor]
  · convert Change.idle (Nat.le_succ (view K s).next) using 1
    simp only [view, activeFor_other ha hk]
    simp [putEntry, TerminalControlState.activeFor, Ne.symm hk]

end Keyed
end Ops

/-- **Every operation changes the records of a key as listed.** -/
theorem exec_change (K : AttemptKey) (op : Op) (s : State) :
    Change K op (view K s) (view K (exec op s).1) (op.claims K && (exec op s).2) := by
  cases op with
  | claim key => exact change_claim key s
  | batchClaim scope key => exact change_batchClaim key s scope
  | claimWire scope key => exact change_claimWire key s scope
  | activate key => exact change_activate key s
  | clear => exact change_clear s
  | claimAtGeneration key generation => exact change_claimAt key s generation
  | announce key => exact change_announce key s
  | toQueued key generation => exact change_toQueued key s generation
  | bindActive key generation owner => exact change_bindActive key s generation owner
  | batchReadyWithPending key generation owner now => exact change_readyWithPending key s generation owner now
  | batchReady key generation now => exact change_batchReady key s generation now
  | batchClear key => exact change_eraseEntry key s
  | batchClearAt key generation => exact change_batchClearAt key s generation
  | clearAll => exact change_clearAll s
  | control kind key => exact change_control key s kind
  | batchControl kind key => exact change_batchControl key s kind
  | handoff key generation => exact change_handoff key s generation
  | toBatch key => exact change_toBatch key s
  | ready key => exact change_ready key s
  | wait expired key => exact change_wait key s expired
  | adopt key index =>
    show Moves K _ s (((s.issued[index]?).map fun t => (adoptSingletonTransfer key t s).1).getD s)
    cases ht : s.issued[index]? with
    | none => exact .same
    | some t => exact change_adopt (List.mem_of_getElem? ht)

end Hipfire.Terminal

import Hipfire.Base.Maps
/-!
# Control — terminal control of single requests and of batch lanes

Two owners can hold a request key `(id, attempt_id)`: the keyed batch registry and the one active singleton.  A handoff
leaves a tombstone under the key until the singleton side adopts it.  Every function here runs under the locks it takes, so
it is one atomic step; the thread's batch scope and the clock are arguments.
-/
namespace Hipfire.Terminal

structure AttemptKey where
  id : String
  attemptId : Nat
  deriving DecidableEq, Repr

/-- `commit` and `abort`, both as a latched control decision and as the outcome a client is told. -/
inductive Decision
  | abort
  | commit
  deriving DecidableEq, Repr

/-- The kinds of a control message; the others are ignored. -/
inductive Kind
  | abort
  | commit
  | other
  deriving DecidableEq, Repr

/-- The active singleton transaction. -/
structure ActiveTerminalControl where
  key : AttemptKey
  generation : Nat
  ready : Bool
  decision : Option Decision
  terminalClaimed : Bool
  deriving DecidableEq, Repr

structure LaneTicket where
  lane : Nat
  generation : Nat
  admission : Nat
  deriving DecidableEq, Repr

inductive BatchRegistryState
  | announced
  | queued
  | active (owner : LaneTicket)
  | ready (owner : LaneTicket)
  deriving DecidableEq, Repr

def BatchRegistryState.isReady : BatchRegistryState → Bool
  | .ready _ => true
  | _ => false

structure BatchRegistryEntry where
  state : BatchRegistryState
  abortLatched : Bool
  commitLatched : Bool
  terminalClaimed : Bool
  generation : Nat
  deadline : Option Nat
  deriving DecidableEq, Repr

/-- The tombstone of a handoff, in the batch state. -/
structure SingletonHandoff where
  admission : Nat
  singleton : Option ActiveTerminalControl
  abortLatched : Bool
  adopted : Bool
  deriving DecidableEq, Repr

/-- What a handoff returns: the only thing an adoption accepts. -/
structure SingletonTransfer where
  key : AttemptKey
  admission : Nat
  batchAbortLatched : Bool
  singleton : Option ActiveTerminalControl
  deriving DecidableEq, Repr

structure TerminalControlState where
  active : Option ActiveTerminalControl := none
  nextGeneration : Nat := 0

structure BatchTerminalState where
  entries : AList (fun _ : AttemptKey => BatchRegistryEntry) := ∅
  handoffs : AList (fun _ : AttemptKey => SingletonHandoff) := ∅
  nextGeneration : Nat := 0

/-- Both cells, and the transfers that handoffs have returned. -/
structure State where
  terminal : TerminalControlState := {}
  batch : BatchTerminalState := {}
  issued : List SingletonTransfer := []

/-- Seconds from readiness to the deadline for a commit. -/
def clientTerminalCommitTimeout : Nat := 30

/-- The active singleton, if it is the key's. -/
def TerminalControlState.activeFor (t : TerminalControlState) (key : AttemptKey) : Option ActiveTerminalControl :=
  t.active.filter (·.key = key)

/-- A transaction with nothing decided. -/
def freshControl (key : AttemptKey) (generation : Nat) : ActiveTerminalControl :=
  { key, generation, ready := false, decision := none, terminalClaimed := false }

/-- An admission with nothing latched. -/
def freshEntry (state : BatchRegistryState) (abortLatched : Bool) (generation : Nat) : BatchRegistryEntry :=
  { state, abortLatched, commitLatched := false, terminalClaimed := false, generation, deadline := none }

/-! ## The singleton's lifecycle -/

/-- Activate a fresh transaction; a transfer that waits for adoption is not overwritten. -/
def activateTerminalControl (key : AttemptKey) (s : State) : State :=
  if (s.batch.handoffs.lookup key).isSome then s
  else
    let generation := s.terminal.nextGeneration + 1
    { s with terminal := ⟨some (freshControl key generation), generation⟩ }

/-- Clear the active transaction, with the adopted tombstone of its key. -/
def clearTerminalControl (s : State) : State :=
  let handoffs := match s.terminal.active with
    | none => s.batch.handoffs
    | some active =>
      if (s.batch.handoffs.lookup active.key).any (·.adopted) then s.batch.handoffs.erase active.key else s.batch.handoffs
  { s with terminal := { s.terminal with active := none }, batch := { s.batch with handoffs } }

/-- Claim the active transaction of the key, and of the generation if one is asked for. -/
def claimTerminalState (t : TerminalControlState) (key : AttemptKey) (generation : Option Nat) : TerminalControlState × Bool :=
  match t.active with
  | none => (t, false)
  | some active =>
    if active.key ≠ key ∨ generation.any (active.generation != ·) then (t, false)
    else if active.terminalClaimed then (t, false)
    else ({ t with active := some { active with terminalClaimed := true } }, true)

def claimTerminalAtGeneration (key : AttemptKey) (generation : Nat) (s : State) : State × Bool :=
  let r := claimTerminalState s.terminal key (some generation)
  ({ s with terminal := r.1 }, r.2)

def claimTerminal (key : AttemptKey) (s : State) : State × Bool :=
  if key.attemptId = 0 then (s, false)
  else
    let r := claimTerminalState s.terminal key none
    ({ s with terminal := r.1 }, r.2)

/-! ## Claims on the wire -/

/-- Claim a batch entry from the scope of its generation. -/
def claimEntry (scope : Option Nat) (key : AttemptKey) (entry : BatchRegistryEntry) (s : State) : State × Bool :=
  if scope ≠ some entry.generation ∨ entry.terminalClaimed then (s, false)
  else
    ({ s with batch := { s.batch with entries := s.batch.entries.insert key { entry with terminalClaimed := true } } }, true)

def batchClaimTerminal (scope : Option Nat) (key : AttemptKey) (s : State) : State × Bool :=
  match s.batch.entries.lookup key with
  | none => (s, false)
  | some entry => claimEntry scope key entry s

/-- Batch keys are checked first, then tombstones, then the singleton. -/
def claimWireTerminal (scope : Option Nat) (key : AttemptKey) (s : State) : State × Bool :=
  match s.batch.entries.lookup key with
  | some entry => claimEntry scope key entry s
  | none =>
    let claimSingleton :=
      let r := claimTerminalState s.terminal key none
      ({ s with terminal := r.1 }, r.2)
    match s.batch.handoffs.lookup key with
    | some handoff => if scope.isSome ∨ handoff.adopted = false then (s, false) else claimSingleton
    | none =>
      -- a scope with no live entry is a stale batch producer
      if scope.isSome ∨ s.batch.entries.keys.any (·.id == key.id) then (s, false) else claimSingleton

/-! ## The batch registry -/

/-- Put a new admission under the key. -/
def putEntry (key : AttemptKey) (state : BatchRegistryState) (abortLatched : Bool) (b : BatchTerminalState) :
    BatchTerminalState :=
  let generation := b.nextGeneration + 1
  { b with entries := b.entries.insert key (freshEntry state abortLatched generation), nextGeneration := generation }

def batchAnnounceTerminal (key : AttemptKey) (s : State) : State × Option Nat :=
  if (s.batch.entries.lookup key).isSome ∨ (s.batch.handoffs.lookup key).isSome then (s, none)
  else ({ s with batch := putEntry key .announced false s.batch }, some (s.batch.nextGeneration + 1))

/-- Change the entry of a key, when the change is accepted. -/
def updateEntry (key : AttemptKey) (change : BatchRegistryEntry → Option BatchRegistryEntry) (s : State) : State × Bool :=
  match (s.batch.entries.lookup key).bind change with
  | none => (s, false)
  | some entry => ({ s with batch := { s.batch with entries := s.batch.entries.insert key entry } }, true)

def batchTransitionToQueued (key : AttemptKey) (generation : Nat) (s : State) : State × Bool :=
  updateEntry key (fun e =>
    if e.generation ≠ generation then none
    else match e.state with
      | .announced | .queued => some { e with state := .queued }
      | _ => none) s

def batchBindActive (key : AttemptKey) (generation : Nat) (owner : LaneTicket) (s : State) : State × Bool :=
  updateEntry key (fun e =>
    if e.generation = generation ∧ owner.admission = generation ∧ e.state = .queued then
      some { e with state := .active owner }
    else none) s

def batchMarkReadyWithPending (key : AttemptKey) (generation : Nat) (owner : LaneTicket) (now : Nat) (s : State) :
    State × Bool :=
  updateEntry key (fun e =>
    if e.generation = generation ∧ owner.admission = generation ∧ e.state = .active owner then
      some { e with state := .ready owner, deadline := some (now + clientTerminalCommitTimeout) }
    else none) s

def batchMarkReady (key : AttemptKey) (generation now : Nat) (s : State) : State × Bool :=
  updateEntry key (fun e =>
    if e.generation ≠ generation then none
    else match e.state with
      | .active owner => some { e with state := .ready owner, deadline := some (now + clientTerminalCommitTimeout) }
      | _ => none) s

def eraseEntry (key : AttemptKey) (s : State) : State :=
  { s with batch := { s.batch with entries := s.batch.entries.erase key } }

def batchClearTerminal (key : AttemptKey) (s : State) : State := eraseEntry key s

def batchClearTerminalAtGeneration (key : AttemptKey) (generation : Nat) (s : State) : State × Bool :=
  if (s.batch.entries.lookup key).any (·.generation == generation) then (eraseEntry key s, true) else (s, false)

def batchClearAllTerminals (s : State) : State := { s with batch := { s.batch with entries := ∅, handoffs := ∅ } }

/-! ## Controls -/

/-- Latch a decision on a transaction that has none. -/
def latch (decision : Decision) (active : ActiveTerminalControl) : ActiveTerminalControl :=
  if active.decision.isNone then { active with decision := some decision } else active

/-- A commit is latched only on a ready transaction. -/
def latchCommit (active : ActiveTerminalControl) : ActiveTerminalControl :=
  if active.ready then latch .commit active else active

/-- A control for a key with a tombstone: the captured transaction takes it, and the active one once it was adopted. -/
def applyHandoffControl (t : TerminalControlState) (key : AttemptKey) (handoff : SingletonHandoff) (kind : Kind) :
    TerminalControlState × SingletonHandoff :=
  let onActive := fun (f : ActiveTerminalControl → ActiveTerminalControl) =>
    if handoff.adopted then { t with active := t.active.map fun a => if a.key = key then f a else a } else t
  match kind with
  | .abort => (onActive (latch .abort),
      { handoff with abortLatched := true, singleton := handoff.singleton.map (latch .abort) })
  | .commit =>
    if handoff.abortLatched then (t, handoff)
    else (onActive latchCommit, { handoff with singleton := handoff.singleton.map latchCommit })
  | .other => (t, handoff)

/-- Apply a control to the tombstone of the key. -/
def controlHandoff (kind : Kind) (key : AttemptKey) (handoff : SingletonHandoff) (s : State) : State :=
  let r := applyHandoffControl s.terminal key handoff kind
  { s with terminal := r.1, batch := { s.batch with handoffs := s.batch.handoffs.insert key r.2 } }

def batchApplyTerminalControl (kind : Kind) (key : AttemptKey) (s : State) : State :=
  match s.batch.handoffs.lookup key with
  | some handoff => controlHandoff kind key handoff s
  | none => (updateEntry key (fun e =>
      match kind with
      | .abort => some { e with abortLatched := true }
      | .commit => if e.abortLatched then none else if e.state.isReady then some { e with commitLatched := true } else none
      | .other => none) s).1

def applyTerminalControl (kind : Kind) (key : AttemptKey) (s : State) : State :=
  match s.batch.handoffs.lookup key with
  | some handoff => controlHandoff kind key handoff s
  | none =>
    let onActive := fun (f : ActiveTerminalControl → ActiveTerminalControl) =>
      { s with terminal := { s.terminal with active := s.terminal.active.map fun a => if a.key = key then f a else a } }
    match kind with
    | .abort => onActive (latch .abort)
    | .commit => onActive latchCommit
    | .other => s

def markTerminalControlReady (key : AttemptKey) (s : State) : State × Bool :=
  match s.terminal.activeFor key with
  | none => (s, false)
  | some active => ({ s with terminal := { s.terminal with active := some { active with ready := true } } }, true)

/-! ## Polls and waits -/

def batchPollDecision (now : Nat) (key : AttemptKey) (generation : Nat) (s : State) : Option Decision :=
  match s.batch.entries.lookup key with
  | some e =>
    if e.generation ≠ generation then none
    else if e.abortLatched then some .abort
    else if e.deadline.any (· ≤ now) then some .abort
    else if e.commitLatched ∧ e.state.isReady then some .commit
    else none
  | none => match s.batch.handoffs.lookup key with
    | some handoff => if handoff.admission = generation ∧ handoff.adopted = false then some .abort else none
    | none => none

/-- One pass of the wait's loop; without a decision it waits on. -/
def batchWaitDecision (now : Nat) (expired : Bool) (key : AttemptKey) (generation : Nat) (s : State) : Option Decision :=
  match s.batch.entries.lookup key with
  | none => some .abort
  | some e =>
    if e.generation ≠ generation ∨ e.abortLatched then some .abort
    else if e.deadline.any (· ≤ now) then some .abort
    else if e.commitLatched ∧ e.state.isReady then some .commit
    else if expired then some .abort
    else none

/-- One pass of the singleton's wait; a timeout latches an abort. -/
def waitTerminalControlDecision (expired : Bool) (key : AttemptKey) (s : State) : State × Option Decision :=
  match s.terminal.activeFor key with
  | none => (s, some .abort)
  | some active =>
    match active.decision with
    | some decision => (s, some decision)
    | none =>
      if expired then
        ({ s with terminal := { s.terminal with active := some { active with decision := some .abort } } }, some .abort)
      else (s, none)

/-! ## Handoffs -/

/-- Replace an exact admission by a tombstone that captures the singleton of its key. -/
def batchHandoffToSingletonAndClear (key : AttemptKey) (generation : Nat) (s : State) : State × Option SingletonTransfer :=
  if (s.batch.handoffs.lookup key).isSome then (s, none)
  else match (s.batch.entries.lookup key).filter (·.generation = generation) with
    | none => (s, none)
    | some entry =>
      let singleton := s.terminal.activeFor key
      let transfer : SingletonTransfer := ⟨key, generation, entry.abortLatched, singleton⟩
      let handoff : SingletonHandoff := ⟨generation, singleton, entry.abortLatched, false⟩
      ({ terminal := if singleton.isSome then { s.terminal with active := none } else s.terminal
         batch := { s.batch with entries := s.batch.entries.erase key, handoffs := s.batch.handoffs.insert key handoff }
         issued := s.issued ++ [transfer] }, some transfer)

/-- Restore a transferred transaction as the active one. -/
def adoptSingletonTransfer (key : AttemptKey) (transfer : SingletonTransfer) (s : State) : State × Bool :=
  if transfer.key ≠ key then (s, false)
  else match s.batch.handoffs.lookup key with
    | none => (s, false)
    | some handoff =>
      if handoff.admission ≠ transfer.admission ∨ handoff.adopted then (s, false)
      else
        let captured := handoff.singleton.or transfer.singleton
        -- without a captured transaction a new generation is allocated
        let nextGeneration := if captured.isSome then s.terminal.nextGeneration else s.terminal.nextGeneration + 1
        let singleton := captured.getD (freshControl key nextGeneration)
        if singleton.key ≠ key then ({ s with terminal := { s.terminal with nextGeneration } }, false)
        else
          let singleton := if handoff.abortLatched ∨ transfer.batchAbortLatched then latch .abort singleton else singleton
          let handoff := { handoff with singleton := some singleton, adopted := true }
          ({ s with
             terminal := ⟨some singleton, nextGeneration⟩
             batch := { s.batch with handoffs := s.batch.handoffs.insert key handoff } }, true)

/-- Move the live singleton of the key into a fresh batch admission. -/
def singletonHandoffToBatch (key : AttemptKey) (s : State) : State × Option Nat :=
  match s.terminal.activeFor key with
  | none => (s, none)
  | some active =>
    if active.terminalClaimed ∨ (s.batch.entries.lookup key).isSome ∨
        (s.batch.handoffs.lookup key).any (·.adopted == false) then (s, none)
    else
      let batch := { s.batch with handoffs := s.batch.handoffs.erase key }
      ({ s with
         terminal := { s.terminal with active := none }
         batch := putEntry key .queued (active.decision == some .abort) batch }, some (s.batch.nextGeneration + 1))

/-! ## Operations -/

/-- The atomic operations.  An adoption presents one of the transfers that were issued. -/
inductive Op
  | activate (key : AttemptKey)
  | clear
  | claimAtGeneration (key : AttemptKey) (generation : Nat)
  | claim (key : AttemptKey)
  | batchClaim (scope : Option Nat) (key : AttemptKey)
  | claimWire (scope : Option Nat) (key : AttemptKey)
  | announce (key : AttemptKey)
  | toQueued (key : AttemptKey) (generation : Nat)
  | bindActive (key : AttemptKey) (generation : Nat) (owner : LaneTicket)
  | batchReadyWithPending (key : AttemptKey) (generation : Nat) (owner : LaneTicket) (now : Nat)
  | batchReady (key : AttemptKey) (generation now : Nat)
  | batchClear (key : AttemptKey)
  | batchClearAt (key : AttemptKey) (generation : Nat)
  | clearAll
  | control (kind : Kind) (key : AttemptKey)
  | batchControl (kind : Kind) (key : AttemptKey)
  | handoff (key : AttemptKey) (generation : Nat)
  | adopt (key : AttemptKey) (index : Nat)
  | toBatch (key : AttemptKey)
  | ready (key : AttemptKey)
  | wait (expired : Bool) (key : AttemptKey)
  deriving DecidableEq, Repr

/-- One operation: the state after it, and whether it was a claim that succeeded. -/
def exec (op : Op) (s : State) : State × Bool :=
  match op with
  | .activate key => (activateTerminalControl key s, false)
  | .clear => (clearTerminalControl s, false)
  | .claimAtGeneration key generation => claimTerminalAtGeneration key generation s
  | .claim key => claimTerminal key s
  | .batchClaim scope key => batchClaimTerminal scope key s
  | .claimWire scope key => claimWireTerminal scope key s
  | .announce key => ((batchAnnounceTerminal key s).1, false)
  | .toQueued key generation => ((batchTransitionToQueued key generation s).1, false)
  | .bindActive key generation owner => ((batchBindActive key generation owner s).1, false)
  | .batchReadyWithPending key generation owner now => ((batchMarkReadyWithPending key generation owner now s).1, false)
  | .batchReady key generation now => ((batchMarkReady key generation now s).1, false)
  | .batchClear key => (batchClearTerminal key s, false)
  | .batchClearAt key generation => ((batchClearTerminalAtGeneration key generation s).1, false)
  | .clearAll => (batchClearAllTerminals s, false)
  | .control kind key => (applyTerminalControl kind key s, false)
  | .batchControl kind key => (batchApplyTerminalControl kind key s, false)
  | .handoff key generation => ((batchHandoffToSingletonAndClear key generation s).1, false)
  | .adopt key index => (((s.issued[index]?).map fun t => (adoptSingletonTransfer key t s).1).getD s, false)
  | .toBatch key => ((singletonHandoffToBatch key s).1, false)
  | .ready key => ((markTerminalControlReady key s).1, false)
  | .wait expired key => ((waitTerminalControlDecision expired key s).1, false)

end Hipfire.Terminal

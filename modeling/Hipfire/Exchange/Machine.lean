import Hipfire.Base.Events
import Hipfire.Base.Run
/-!
# Machine — the expert-tile exchange between ranks

`ep_tile_exchange.rs`: every rank has a host thread and a stream.  A host step is one call of the source that another rank
can see: an enqueue, an arrival at a host barrier, the way past it, or the store of a counter.  A wait enqueued on a stream
is bound to the latest record of its event.
-/
namespace Hipfire.Exchange

/-- The two kinds of events of a rank, each double-buffered by parity. -/
inductive Kind
  | ready
  | done
  deriving DecidableEq, Repr

/-- Parity of the event pair that exchange `k` uses. -/
def parity (k : Nat) : Nat := k % 2

/-- The parity the next down waits on after some exchanges. -/
def pendingDoneParity (exchanged : Nat) : Option Nat := if exchanged = 0 then none else some (parity (exchanged - 1))

/-- Every rank but this one, ascending. -/
def peers (ranks rank : Nat) : List Nat := (List.range ranks).filter (· ≠ rank)

/-! ## The pull kernel -/

/-- The tile ids, the owner rank of each expert and the tile count of one exchange. -/
structure Layout where
  tileIds : List Int
  ownerTable : List Nat
  tiles : Nat
  deriving DecidableEq, Repr

/-- The owner of a live tile. -/
def Layout.tileOwner (x : Layout) (t : Nat) : Option Nat :=
  if t < x.tiles then
    match x.tileIds[t]? with
    | some id => if 0 ≤ id then x.ownerTable[id.toNat]? else none
    | none => none
  else none

def tileRows : Nat := 16

def Layout.rowOwner (x : Layout) (row : Nat) : Option Nat := x.tileOwner (row / tileRows)

/-- The source slot the launcher passes for an owner: with two ranks the one peer, whatever the table says.  With more ranks
the kernel skips a tile whose owner is no rank, so this is its source for owners below `ranks` only. -/
def sourceSlot (ranks rank owner : Nat) : Nat := if ranks = 2 then rank ^^^ 1 else owner

/-- A pull of `rank` copies the row from the buffer of `source` onto its own. -/
def pulls (ranks rank : Nat) (x : Layout) (row source : Nat) : Prop :=
  ∃ owner, x.rowOwner row = some owner ∧ owner ≠ rank ∧ source = sourceSlot ranks rank owner

/-! ## Hosts and streams -/

/-- What a rank's forward pass calls: the transport's two entries, and any writer of `y_down_grouped`. -/
inductive Call
  | beforeDown
  | write (rows : List Nat)
  | exchange (x : Layout)
  deriving DecidableEq, Repr

/-- Where a rank's host thread stands inside a call. -/
inductive Phase
  | idle
  | doneWaits (rest : List Nat)
  | arriveFirst (x : Layout)
  | passFirst (x : Layout)
  | readyWaits (x : Layout) (rest : List Nat)
  | complete
  | arriveSecond
  | passSecond
  | store
  deriving DecidableEq, Repr

structure Host where
  calls : List Call
  phase : Phase
  exchanged : Nat
  waited : Nat
  /-- Arrivals at the host barrier. -/
  arrived : Nat
  deriving DecidableEq, Repr

/-- Enqueued work.  `exchange` and `epoch` count the rank's exchanges when it was enqueued. -/
inductive Work
  | write (rows : List Nat) (epoch : Nat)
  | record (kind : Kind) (exchange : Nat)
  | wait (peer : Nat) (kind : Kind) (exchange : Nat) (bound : Option Nat)
  | pull (x : Layout) (exchange : Nat)
  deriving DecidableEq, Repr

/-- What a host step enqueues. -/
inductive Effect
  | write (rows : List Nat) (epoch : Nat)
  | record (kind : Kind) (slot exchange : Nat)
  | wait (peer : Nat) (kind : Kind) (slot exchange : Nat)
  | pull (x : Layout) (exchange : Nat)
  deriving DecidableEq, Repr

/-- One step of a host; `passed` says whether every rank has come to the barrier this one waits at. -/
def advance (ranks rank : Nat) (passed : Bool) (h : Host) : Host × Option Effect :=
  match h.phase, h.calls with
  | .idle, [] => (h, none)
  | .idle, .write rows :: calls => ({ h with calls }, some (.write rows h.exchanged))
  | .idle, .beforeDown :: calls =>
    match pendingDoneParity h.exchanged with
    | none => ({ h with calls }, none)
    | some _ =>
      if h.waited = h.exchanged then ({ h with calls }, none)
      else ({ h with calls, phase := .doneWaits (peers ranks rank) }, none)
  | .doneWaits (q :: rest), _ =>
    match pendingDoneParity h.exchanged with
    | none => (h, none)
    | some p => ({ h with phase := .doneWaits rest }, some (.wait q .done p (h.exchanged - 1)))
  | .doneWaits [], _ => ({ h with phase := .idle, waited := h.exchanged }, none)
  | .idle, .exchange x :: calls =>
    ({ h with calls, phase := .arriveFirst x }, some (.record .ready (parity h.exchanged) h.exchanged))
  | .arriveFirst x, _ => ({ h with phase := .passFirst x, arrived := h.arrived + 1 }, none)
  | .passFirst x, _ => if passed then ({ h with phase := .readyWaits x (peers ranks rank) }, none) else (h, none)
  | .readyWaits x (q :: rest), _ =>
    ({ h with phase := .readyWaits x rest }, some (.wait q .ready (parity h.exchanged) h.exchanged))
  | .readyWaits x [], _ => ({ h with phase := .complete }, some (.pull x h.exchanged))
  | .complete, _ => ({ h with phase := .arriveSecond }, some (.record .done (parity h.exchanged) h.exchanged))
  | .arriveSecond, _ => ({ h with phase := .passSecond, arrived := h.arrived + 1 }, none)
  | .passSecond, _ => if passed then ({ h with phase := .store }, none) else (h, none)
  | .store, _ => ({ h with phase := .idle, exchanged := h.exchanged + 1 }, none)

structure State where
  hosts : Nat → Host
  streams : Nat → List Work
  /-- The position of the latest record of each event, by rank, kind and parity. -/
  slots : Nat → Kind → Nat → Option Nat

/-- The work of an effect on a rank's stream. -/
def Effect.work (s : State) : Effect → Work
  | .write rows epoch => .write rows epoch
  | .record kind _ exchange => .record kind exchange
  | .wait q kind slot exchange => .wait q kind exchange (s.slots q kind slot)
  | .pull x exchange => .pull x exchange

def Effect.slots (rank : Nat) (s : State) : Effect → Nat → Kind → Nat → Option Nat
  | .record kind slot _ => fun r k p =>
    if r = rank ∧ k = kind ∧ p = slot then some (s.streams rank).length else s.slots r k p
  | _ => s.slots

def State.allArrived (ranks rank : Nat) (s : State) : Bool :=
  (List.range ranks).all fun q => (s.hosts rank).arrived ≤ (s.hosts q).arrived

/-- One host step of a rank. -/
def step (ranks rank : Nat) (s : State) : State :=
  match advance ranks rank (s.allArrived ranks rank) (s.hosts rank) with
  | (h, none) => { s with hosts := Function.update s.hosts rank h }
  | (h, some effect) =>
    { hosts := Function.update s.hosts rank h
      streams := Function.update s.streams rank (s.streams rank ++ [effect.work s])
      slots := effect.slots rank s }

def init (programs : Nat → List Call) : State where
  hosts := fun r => ⟨programs r, .idle, 0, 0, 0⟩
  streams := fun _ => []
  slots := fun _ _ _ => none

/-- An interleaving of the host threads: the rank that steps next, again and again. -/
def run (ranks : Nat) : List Nat → State → State := runAll fun rank => step ranks rank

/-! ## The caller's side -/

/-- The exchanges of a program. -/
def layouts (calls : List Call) : List Layout := calls.filterMap fun
  | .exchange x => some x
  | _ => none

/-- Every writer after an exchange is preceded by `before_down`; `owed` says whether one is owed now. -/
def Contract : Bool → List Call → Prop
  | _, [] => True
  | _, .beforeDown :: calls => Contract false calls
  | owed, .write _ :: calls => owed = false ∧ Contract owed calls
  | _, .exchange _ :: calls => Contract true calls

/-- The work writes the row of the rank's `y_down_grouped`. -/
def Work.writes (ranks rank : Nat) (row : Nat) : Work → Prop
  | .write rows _ => row ∈ rows
  | .pull x _ => ∃ source, pulls ranks rank x row source
  | _ => False

/-- The exchanges enqueued before the work, its own not counted. -/
def Work.epoch : Work → Nat
  | .write _ epoch => epoch
  | .record _ exchange | .wait _ _ exchange _ | .pull _ exchange => exchange

/-- The record a wait of a stream is bound to. -/
def Work.bound : Work → Option (Nat × Nat)
  | .wait q _ _ bound => bound.map (q, ·)
  | _ => none

end Hipfire.Exchange

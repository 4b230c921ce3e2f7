import Hipfire.Base.Maps
import Hipfire.Serve.Admission
import Hipfire.Serve.SlotPool
/-!
# SessionTable — which session holds which slot

`session_table.rs`, with the slot pool and the admission controller that its methods are given.  Instants are numbers and
inputs of the operations that read the clock; the order in which the session map is visited is one as well.
-/
namespace Hipfire.Serve

inductive Residency where
  | resident
  | swapped
  | cold
deriving DecidableEq, Repr

structure Session where
  slot : Option Nat
  grantedCtx : Nat
  tokens : List Nat
  nextPos : Nat
  residency : Residency
  publishedBoundary : Nat
  lastUsed : Nat
  lastUsedAt : Nat
  admitted : Bool
deriving DecidableEq, Repr

structure SessionTable where
  sessions : AList (fun _ : Nat => Session)
  nextId : Nat
  clock : Nat

/-- The table, the pool and the controller. -/
structure Serving where
  table : SessionTable
  pool : SlotPool
  adm : AdmissionController

namespace Serving

/-- `SessionTable::default()` beside a pool and a controller. -/
def start (pool : SlotPool) (footprint : ModelFootprint) (budgetBytes : Nat) : Serving :=
  ⟨⟨∅, 0, 0⟩, pool, .new footprint budgetBytes⟩

variable (σ : Serving)

def session? (id : Nat) : Option Session := σ.table.sessions.lookup id

def setSession (id : Nat) (s : Session) : Serving :=
  { σ with table := { σ.table with sessions := σ.table.sessions.insert id s } }

/-- The next tick of the clock. -/
def tick : Serving := { σ with table := { σ.table with clock := σ.table.clock + 1 } }

/-- Admission first, then the slot; without a slot the grant is given back. -/
def seat (id requestedCtx : Nat) : Serving × Except AdmitError (Nat × Nat) :=
  match σ.adm.admitSession id requestedCtx with
  | (adm, .error e) => ({ σ with adm }, .error e)
  | (adm, .ok grantedCtx) =>
    match σ.pool.acquire with
    | (pool, none) => ({ σ with pool, adm := adm.release id }, .error .poolFull)
    | (pool, some slot) => ({ σ with pool, adm }, .ok (grantedCtx, slot))

/-- `SessionTable::open`. -/
def openSession (requestedCtx now : Nat) : Serving × Except AdmitError Nat :=
  let id := σ.table.nextId
  match σ.seat id requestedCtx with
  | (σ, .error e) => (σ, .error e)
  | (σ, .ok (grantedCtx, slot)) =>
    let σ := { σ with table := { σ.table with nextId := id + 1 } }.tick
    (σ.setSession id ⟨some slot, grantedCtx, [], 0, .resident, 0, σ.table.clock, now, true⟩, .ok id)

/-- A slot given back, if there is one. -/
def releaseSlot (slot : Option Nat) : Serving :=
  match slot with
  | none => σ
  | some slot => { σ with pool := σ.pool.release slot }

/-- A grant given back, if it is held. -/
def releaseGrant (id : Nat) (admitted : Bool) : Serving := if admitted then { σ with adm := σ.adm.release id } else σ

def close (id : Nat) : Serving :=
  match σ.session? id with
  | none => σ
  | some s =>
    let σ := { σ with table := { σ.table with sessions := σ.table.sessions.erase id } }
    (σ.releaseSlot s.slot).releaseGrant id s.admitted

def readmit (id : Nat) : Serving × Except AdmitError Unit :=
  match σ.session? id with
  | none => (σ, .ok ())
  | some s =>
    if s.admitted then (σ, .ok ())
    else match σ.adm.admitSession id s.grantedCtx with
      | (adm, .error e) => ({ σ with adm }, .error e)
      | (adm, .ok _) => ({ σ with adm }.setSession id { s with admitted := true }, .ok ())

def resizeGrant (id newCtx : Nat) : Serving × Except AdmitError Nat :=
  match σ.adm.resize id newCtx with
  | (adm, .error e) => ({ σ with adm }, .error e)
  | (adm, .ok granted) =>
    ({ σ with
      adm
      table := { σ.table with sessions := Maps.modify id (fun s => { s with grantedCtx := granted }) σ.table.sessions } },
      .ok granted)

def markSwapped (id : Nat) : Serving :=
  match σ.session? id with
  | none => σ
  | some s => ((σ.releaseSlot s.slot).releaseGrant id s.admitted).setSession id
      { s with slot := none, admitted := false, residency := .swapped, publishedBoundary := 0 }

def markCold (id : Nat) : Serving :=
  match σ.session? id with
  | none => σ
  | some s => ((σ.releaseSlot s.slot).releaseGrant id s.admitted).setSession id
      { s with slot := none, admitted := false, residency := .cold, nextPos := 0, publishedBoundary := 0 }

def reopenCold (id requestedCtx : Nat) : Serving × Except AdmitError Nat :=
  match σ.session? id with
  | none => (σ, .error (.unknownSession id))
  | some s =>
    if s.residency ≠ .cold ∨ s.slot.isSome ∨ s.admitted then (σ, .error (.unknownSession id))
    else match σ.seat id requestedCtx with
      | (σ, .error e) => (σ, .error e)
      | (σ, .ok (grantedCtx, slot)) =>
        let σ := σ.tick
        (σ.setSession id { s with
          slot := some slot, grantedCtx, admitted := true, residency := .resident, tokens := [], nextPos := 0,
          publishedBoundary := 0, lastUsed := σ.table.clock }, .ok id)

def markResident (id slot seqLen now : Nat) : Serving :=
  let σ := σ.tick
  match σ.session? id with
  | none => σ
  | some s => σ.setSession id { s with
      slot := some slot, residency := .resident, nextPos := seqLen, lastUsed := σ.table.clock, lastUsedAt := now }

/-- A restore, as the engine does it: admission, then a slot, then the session is resident again; a failure makes it cold.
Only a session that exists and is swapped is restored. -/
def restore (id seqLen now : Nat) : Serving :=
  match σ.session? id with
  | none => σ
  | some s =>
    if s.residency ≠ .swapped then σ
    else match σ.readmit id with
      | (σ, .error _) => σ.markCold id
      | (σ, .ok ()) =>
        match σ.pool.acquire with
        | (pool, none) => { σ with pool }.markCold id
        | (pool, some slot) => { σ with pool }.markResident id slot seqLen now

/-! ## The sweep -/

/-- Parked for longer than `maxIdle`. -/
def isExpired (now maxIdle : Nat) (s : Session) : Bool := s.residency ≠ .resident ∧ maxIdle < now - s.lastUsedAt

def expired (now maxIdle : Nat) : List Nat :=
  ((σ.table.sessions.entries.filter (fun e => isExpired now maxIdle e.2)).map Sigma.fst).insertionSort (· ≤ ·)

/-- The parked session that was used least recently; `rank` is the order of the visit. -/
def victim (rank : Nat → Nat) : Option Nat :=
  let parked := (σ.table.sessions.entries.filter (fun e => e.2.residency ≠ .resident)).insertionSort
    (fun a b => rank a.1 ≤ rank b.1)
  (parked.foldl (fun (best : Option (Nat × Nat)) e =>
    match best with
    | none => some (e.1, e.2.lastUsed)
    | some (_, used) => if e.2.lastUsed < used then some (e.1, e.2.lastUsed) else best) none).map Prod.fst

/-- The loop down to the hard cap, round after round. -/
def capLoop (maxSessions : Nat) (rank : Nat → Nat → Nat) : Nat → Serving → List Nat → Serving × List Nat
  | 0, σ, closed => (σ, closed)
  | fuel + 1, σ, closed =>
    if σ.table.sessions.entries.length ≤ maxSessions then (σ, closed)
    else match σ.victim (rank fuel) with
      | none => (σ, closed)
      | some id => capLoop maxSessions rank fuel (σ.close id) (closed ++ [id])

def sweepExpired (now maxIdle maxSessions : Nat) (rank : Nat → Nat → Nat) : Serving × List Nat :=
  let ids := σ.expired now maxIdle
  let σ := ids.foldl close σ
  capLoop maxSessions rank σ.table.sessions.entries.length σ ids

end Serving

/-! ## Runs -/

inductive SessionOp where
  | openSession (requestedCtx now : Nat)
  | close (id : Nat)
  | resizeGrant (id newCtx : Nat)
  | markSwapped (id : Nat)
  | markCold (id : Nat)
  | reopenCold (id requestedCtx : Nat)
  | sweepExpired (now maxIdle maxSessions : Nat) (rank : Nat → Nat → Nat)
  | restore (id seqLen now : Nat)

namespace Serving

def step (σ : Serving) : SessionOp → Serving
  | .openSession ctx now => (σ.openSession ctx now).1
  | .close id => σ.close id
  | .resizeGrant id ctx => (σ.resizeGrant id ctx).1
  | .markSwapped id => σ.markSwapped id
  | .markCold id => σ.markCold id
  | .reopenCold id ctx => (σ.reopenCold id ctx).1
  | .sweepExpired now maxIdle maxSessions rank => (σ.sweepExpired now maxIdle maxSessions rank).1
  | .restore id seqLen now => σ.restore id seqLen now

def run (σ : Serving) (ops : List SessionOp) : Serving := ops.foldl step σ

end Serving
end Hipfire.Serve

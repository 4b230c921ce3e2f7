import Hipfire.Pages.Sessions
/-!
# Arrays — the sessions as if each had a memory of its own

The simple model of a paged cache: every session owns a private array of its live positions, the cache owns a private copy of
every page published to it, and sharing copies.  Positions that become live without a write hold any values.
-/
namespace Hipfire.Pages

/-- A session: the pages it has room for and the values at its live positions. -/
structure Session (V : Type) where
  pages : Nat
  cells : List V

structure Arrays (V : Type) (k : Nat) where
  sessions : Fin k → Session V
  cache : Nat → List V

/-- Some values replaced, from a position on. -/
def overwrite {V : Type} (cells : List V) (start : Nat) (values : List V) : List V :=
  cells.take start ++ values ++ cells.drop (start + values.length)

namespace Arrays

variable {V : Type} {k : Nat}

def new (k : Nat) : Arrays V k := ⟨fun _ => ⟨0, []⟩, fun _ => []⟩

def set (a : Arrays V k) (t : Fin k) (session : Session V) : Arrays V k :=
  { a with sessions := Function.update a.sessions t session }

/-- One step, by whether the call was accepted.  The steps of a write before the store leave the arrays alone; a share that was
refused after some pages leaves room without live positions. -/
def Step (a : Arrays V k) (op : SessionOp V k) (accepted : Bool) (a' : Arrays V k) : Prop :=
  match op, accepted with
  | .call (.ensureCapacity t n), true => ∃ fresh, ((a.sessions t).cells.take n ++ fresh).length = n ∧
      a' = a.set t ⟨max (a.sessions t).pages ((n + (pageTokens - 1)) / pageTokens), (a.sessions t).cells.take n ++ fresh⟩
  | .call (.freePagesFromTail t n), true =>
      a' = a.set t ⟨(a.sessions t).pages - n, (a.sessions t).cells.take (((a.sessions t).pages - n) * pageTokens)⟩
  | .call (.releaseTable t), true => a' = a.set t ⟨0, []⟩
  | .sharePrefix src dst n, true => a' = a.set dst ⟨n, (a.sessions src).cells.take (n * pageTokens)⟩
  | .sharePrefix _ dst _, false => ∃ pages, a' = a.set dst ⟨pages, (a.sessions dst).cells⟩
  | .attach t phys, true => a' = a.set t ⟨(a.sessions t).pages + 1, (a.sessions t).cells ++ a.cache phys⟩
  | .publish t lp phys, true => ∃ block, block.length = pageTokens ∧
      ((a.sessions t).cells.drop (lp * pageTokens)).take pageTokens <+: block ∧
      a' = { a with cache := Function.update a.cache phys block }
  | .store t start values, _ => a' = a.set t ⟨(a.sessions t).pages, overwrite (a.sessions t).cells start values⟩
  | _, _ => a' = a

end Arrays

variable {V : Type} {k : Nat}

/-- A committed write is about to store at the position. -/
def Sessions.Overwriting (σ : Sessions V k) (t : Fin k) (i : Nat) : Prop :=
  ∃ wr ∈ σ.committed, wr.table = t ∧ wr.start ≤ i ∧ i < wr.stop

/-- Every session reads its own array, at every live position that is not about to be stored. -/
def Agrees (σ : Sessions V k) (a : Arrays V k) : Prop :=
  ∀ t, (a.sessions t).cells.length = (σ.world.tables t).liveTokens ∧
    ∀ i < (σ.world.tables t).liveTokens, ¬ σ.Overwriting t i → σ.read t i = (a.sessions t).cells[i]?

/-- The private arrays can follow some steps, and agree with what is read before and after each of them. -/
def Follows : Sessions V k → Arrays V k → List (SessionOp V k) → Prop
  | σ, a, [] => Agrees σ a
  | σ, a, op :: ops => Agrees σ a ∧ ∃ b, a.Step op (σ.step op).2.isOk b ∧ Follows (σ.step op).1 b ops

end Hipfire.Pages

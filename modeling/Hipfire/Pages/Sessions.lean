import Hipfire.Base.Cells
import Hipfire.Pages.World
/-!
# Sessions — what the sessions of a pool read and write

Each position of a physical page is a cell of the memory; a session reads and writes its positions through its block table.
A session writes an interval in four steps: it plans, copies what the plan lists, commits and stores.  Calls of other sessions
may come in between.
-/
namespace Hipfire.Pages

/-- The cell of a position, by page and offset. -/
def BlockTable.addr (table : BlockTable) (i : Nat) : Option (Nat × Nat) :=
  (table.physical (i / pageTokens)).map (fun p => (p, i % pageTokens))

/-- A write of `[start, stop)` that is not finished. -/
structure Write (k : Nat) where
  table : Fin k
  start : Nat
  stop : Nat
  copied : Bool
deriving DecidableEq

structure Sessions (V : Type) (k : Nat) where
  world : World k
  memory : Nat × Nat → V
  /-- The planned writes, in the order of the world's plans. -/
  planned : List (Write k)
  committed : List (Write k)

inductive SessionOp (V : Type) (k : Nat) where
  /-- A call on the pool that is not part of a write. -/
  | call (op : PoolOp k)
  | sharePrefix (src dst : Fin k) (n : Nat)
  | attach (t : Fin k) (phys : Nat)
  /-- `add_cache_ref` for a page of a table. -/
  | publish (t : Fin k) (lp phys : Nat)
  | plan (t : Fin k) (writeStart writeEnd : Nat)
  | copy (t : Fin k)
  | commit (t : Fin k)
  | abort (t : Fin k)
  | store (t : Fin k) (start : Nat) (values : List V)

/-- One copy of a plan: the valid prefix of the source page. -/
def copyPrefix {V : Type} (c : CowCopy) (memory : Nat × Nat → V) : Nat × Nat → V
  | (p, j) => if p = c.dstPhys ∧ j < c.validPrefixTokens then memory (c.srcPhys, j) else memory (p, j)

def copyAll {V : Type} (copies : List CowCopy) (memory : Nat × Nat → V) : Nat × Nat → V :=
  copies.foldl (fun memory c => copyPrefix c memory) memory

/-- `set_live_tokens`. -/
def World.setLive {k : Nat} (w : World k) (t : Fin k) (n : Nat) : World k :=
  w.setTable t w.pool { w.tables t with liveTokens := n }

namespace Sessions

variable {V : Type} {k : Nat}

def new (nPages kPerPosBytes vPerPosBytes k : Nat) (memory : Nat × Nat → V) : Sessions V k where
  world := .new nPages kPerPosBytes vPerPosBytes k
  memory := memory
  planned := []
  committed := []

variable (σ : Sessions V k)

/-- What a session reads at a position. -/
def read (t : Fin k) (i : Nat) : Option V := ((σ.world.tables t).addr i).map σ.memory

/-- The place of a table's planned write. -/
def planOf (t : Fin k) : Option Nat := σ.planned.findIdx? (fun wr => wr.table = t)

/-- One step.  After sharing or attaching, the caller counts the pages as live. -/
def step : SessionOp V k → Sessions V k × Except String Unit
  | .call op =>
    let (world, result) := σ.world.step op
    ({ σ with world }, result)
  | .sharePrefix src dst n =>
    match σ.world.step (.sharePrefix src dst n) with
    | (world, .error e) => ({ σ with world }, .error e)
    | (world, .ok ()) => ({ σ with world := world.setLive dst (n * pageTokens) }, .ok ())
  | .attach t phys =>
    match σ.world.step (.attach t phys) with
    | (world, .error e) => ({ σ with world }, .error e)
    | (world, .ok ()) => ({ σ with world := world.setLive t ((world.tables t).pages.length * pageTokens) }, .ok ())
  | .publish _ _ phys =>
    let (world, result) := σ.world.step (.addCacheRef phys)
    ({ σ with world }, result)
  | .plan t writeStart writeEnd =>
    match σ.world.step (.planCow t writeStart writeEnd) with
    | (world, .error e) => ({ σ with world }, .error e)
    | (world, .ok ()) => ({ σ with world, planned := σ.planned ++ [⟨t, writeStart, writeEnd, false⟩] }, .ok ())
  | .copy t =>
    match σ.planOf t with
    | none => (σ, .ok ())
    | some i =>
      match σ.planned[i]?, σ.world.plans[i]? with
      | some wr, some plan =>
        ({ σ with memory := copyAll plan.copies σ.memory, planned := σ.planned.set i { wr with copied := true } }, .ok ())
      | _, _ => (σ, .ok ())
  | .commit t =>
    match σ.planOf t with
    | none => (σ, .ok ())
    | some i =>
      match σ.world.step (.commitCow t i) with
      | (world, .error e) => ({ σ with world, planned := σ.planned.eraseIdx i }, .error e)
      | (world, .ok ()) =>
        ({ σ with world, planned := σ.planned.eraseIdx i, committed := σ.committed ++ σ.planned[i]?.toList }, .ok ())
  | .abort t =>
    match σ.planOf t with
    | none => (σ, .ok ())
    | some i =>
      ({ σ with world := (σ.world.step (.abortCow i)).1, planned := σ.planned.eraseIdx i }, .ok ())
  | .store t start values =>
    ({ σ with
      memory := storeRun (σ.world.tables t).addr start values σ.memory
      committed := σ.committed.filter (fun wr => wr.table ≠ t) }, .ok ())

/-- The sessions after some steps. -/
def run (ops : List (SessionOp V k)) : Sessions V k := ops.foldl (fun σ op => (σ.step op).1) σ

/-- A write of the table is under way. -/
def Busy (t : Fin k) : Prop := t ∈ σ.planned.map Write.table ∨ t ∈ σ.committed.map Write.table

instance (t : Fin k) : Decidable (σ.Busy t) := inferInstanceAs (Decidable (_ ∨ _))

end Sessions

/-- The pages that a write stores to, without those of some logical pages. -/
def Write.stored {k : Nat} (wr : Write k) (table : BlockTable) (copied : List Nat) : List Nat :=
  (List.range' wr.start (wr.stop - wr.start)).filterMap (fun i =>
    if i / pageTokens ∈ copied then none else table.physical (i / pageTokens))

/-- The pages that the writes under way are to store to in place: those they do not copy, and after the commit all. -/
def Sessions.inPlace {V : Type} {k : Nat} (σ : Sessions V k) : List Nat :=
  (σ.planned.zip σ.world.plans).flatMap (fun (wr, plan) =>
    wr.stored (σ.world.tables wr.table) (plan.copies.map CowCopy.logicalPage)) ++
  σ.committed.flatMap (fun wr => wr.stored (σ.world.tables wr.table) [])

/-- The page that holds the end of a write is private, if live positions follow the end on it. -/
def World.TailKept {k : Nat} (w : World k) (t : Fin k) (writeEnd : Nat) : Prop :=
  (w.tables t).liveTokens ≤ writeEnd ∨ writeEnd % pageTokens = 0 ∨
    ∃ p ∈ (w.tables t).physical (writeEnd / pageTokens), (w.pool.pageMeta p).state = .priv

namespace Sessions

variable {V : Type} {k : Nat} (σ : Sessions V k)

/-- The steps as the sessions make them: no other call on a table while a write of it is under way, capacity before a plan,
cached pages attached to full tables, and the steps of a write in order. -/
def Ordered : SessionOp V k → Prop
  | .call (.ensureCapacity t _) | .call (.freePagesFromTail t _) | .call (.releaseTable t) => ¬ σ.Busy t
  | .call (.sealPage _) | .call .drainCompleted => True
  | .call (.addCacheRef phys) | .call (.releaseCacheRef phys) => 0 < σ.world.cacheLeases phys
  | .call (.addInflightRef phys) => σ.world.Held phys
  | .call (.releaseInflightRef phys) => 0 < σ.world.inflightLeases phys
  | .call _ => False
  | .sharePrefix _ dst _ => ¬ σ.Busy dst
  | .attach t phys => ¬ σ.Busy t ∧ 0 < σ.world.cacheLeases phys ∧
      (σ.world.tables t).liveTokens = (σ.world.tables t).pages.length * pageTokens
  | .publish t lp phys => (σ.world.tables t).physical lp = some phys
  | .plan t _ writeEnd => ¬ σ.Busy t ∧ writeEnd ≤ (σ.world.tables t).liveTokens
  | .copy t | .abort t => t ∈ σ.planned.map Write.table
  | .commit t => ∃ wr ∈ σ.planned, wr.table = t ∧ wr.copied = true
  | .store t start values => ∃ wr ∈ σ.committed, wr.table = t ∧ wr.start = start ∧ wr.stop = start + values.length

/-- And a page that a write under way stores to in place is neither shared nor published, nor is a live tail left uncopied. -/
def Guarding (op : SessionOp V k) : Prop :=
  σ.Ordered op ∧ match op with
    | .sharePrefix src _ n => ∀ p ∈ (σ.world.tables src).pages.take n, p ∉ σ.inPlace
    | .publish _ _ phys => phys ∉ σ.inPlace
    | .plan t _ writeEnd => σ.world.TailKept t writeEnd
    | _ => True

/-- Every step of a run meets a condition in the state it is made in. -/
def RunOf (P : Sessions V k → SessionOp V k → Prop) : Sessions V k → List (SessionOp V k) → Prop
  | _, [] => True
  | σ, op :: ops => P σ op ∧ RunOf P (σ.step op).1 ops

end Sessions

end Hipfire.Pages

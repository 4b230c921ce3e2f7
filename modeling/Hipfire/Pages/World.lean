import Hipfire.Base.Lists
import Hipfire.Pages.Tally
/-!
# World — a pool and everything that holds references to its pages

A world is a pool with its users: the block tables of some sessions, the copy-on-write plans not yet committed or aborted,
and the leases that are out.  A step is one call on the pool; its result is the call's.
-/
namespace Hipfire.Pages

structure World (k : Nat) where
  pool : PagePool
  tables : Fin k → BlockTable
  plans : List CowPlan
  cacheLeases : Nat → Nat
  inflightLeases : Nat → Nat

inductive PoolOp (k : Nat) where
  | allocPages (t : Fin k) (n : Nat)
  | allocPagesChecked (t : Fin k) (n : Nat)
  | ensureCapacity (t : Fin k) (n : Nat)
  | sharePrefix (src dst : Fin k) (n : Nat)
  | attach (t : Fin k) (phys : Nat)
  | freePagesFromTail (t : Fin k) (n : Nat)
  | releaseTable (t : Fin k)
  | sealPage (phys : Nat)
  | planCow (t : Fin k) (writeStart writeEnd : Nat)
  | commitCow (t : Fin k) (plan : Nat)
  | abortCow (plan : Nat)
  | addCacheRef (phys : Nat)
  | releaseCacheRef (phys : Nat)
  | addInflightRef (phys : Nat)
  | releaseInflightRef (phys : Nat)
  | drainCompleted

/-! Two tables by name, for the runs shown below the theorems. -/

def tableA : Fin 2 := ⟨0, Nat.two_pos⟩

def tableB : Fin 2 := ⟨1, Nat.one_lt_two⟩

namespace World

variable {k : Nat}

/-- A new pool and `k` empty tables. -/
def new (nPages kPerPosBytes vPerPosBytes k : Nat) : World k where
  pool := .new nPages kPerPosBytes vPerPosBytes
  tables := fun _ => .new
  plans := []
  cacheLeases := fun _ => 0
  inflightLeases := fun _ => 0

variable (w : World k)

/-- The table entries that map a page. -/
def mapped (p : Nat) : Nat := ∑ t, (w.tables t).pages.count p

/-- The reservations of a page by pending plans. -/
def reserved (p : Nat) : Nat := (w.plans.flatMap CowPlan.reserved).count p

def setTable (t : Fin k) (pool : PagePool) (table : BlockTable) : World k :=
  { w with pool := pool, tables := Function.update w.tables t table }

/-- One call on the pool.  `attach` is `refcount_inc` with the push that follows it; a plan is named by its place among the
pending ones, and a commit or an abort uses it up. -/
def step : PoolOp k → World k × Except String Unit
  | .allocPages t n =>
    let (pool, table, _) := w.pool.allocPages (w.tables t) n
    (w.setTable t pool table, .ok ())
  | .allocPagesChecked t n =>
    let (pool, table, result) := w.pool.allocPagesChecked (w.tables t) n
    (w.setTable t pool table, result.map (fun _ => ()))
  | .ensureCapacity t n =>
    let (pool, table, result) := w.pool.ensureCapacity (w.tables t) n
    (w.setTable t pool table, result.map (fun _ => ()))
  | .sharePrefix src dst n =>
    let (pool, table, result) := w.pool.sharePrefix (w.tables src) (w.tables dst) n
    (w.setTable dst pool table, result)
  | .attach t phys =>
    match w.pool.refcountInc phys with
    | (pool, .error e) => ({ w with pool }, .error e)
    | (pool, .ok ()) => (w.setTable t pool ((w.tables t).pushPage phys), .ok ())
  | .freePagesFromTail t n =>
    let (pool, table, result) := w.pool.freePagesFromTail (w.tables t) n
    (w.setTable t pool table, result)
  | .releaseTable t =>
    let (pool, table, result) := w.pool.releaseTable (w.tables t)
    (w.setTable t pool table, result)
  | .sealPage phys =>
    let (pool, result) := w.pool.sealPage phys
    ({ w with pool }, result)
  | .planCow t writeStart writeEnd =>
    match w.pool.planCow (w.tables t) writeStart writeEnd with
    | (pool, .error e) => ({ w with pool }, .error e)
    | (pool, .ok plan) => ({ w with pool, plans := w.plans ++ [plan] }, .ok ())
  | .commitCow t i =>
    match w.plans[i]? with
    | none => (w, .ok ())
    | some plan =>
      let (pool, table, result) := w.pool.commitCow (w.tables t) plan
      ({ w.setTable t pool table with plans := w.plans.eraseIdx i }, result)
  | .abortCow i =>
    match w.plans[i]? with
    | none => (w, .ok ())
    | some plan => ({ w with pool := w.pool.abortCow plan, plans := w.plans.eraseIdx i }, .ok ())
  | .addCacheRef phys =>
    match w.pool.addCacheRef phys with
    | (pool, .error e) => ({ w with pool }, .error e)
    | (pool, .ok ()) =>
      ({ w with pool, cacheLeases := Function.update w.cacheLeases phys (w.cacheLeases phys + 1) }, .ok ())
  | .releaseCacheRef phys =>
    match w.pool.releaseCacheRef phys with
    | (pool, .error e) => ({ w with pool }, .error e)
    | (pool, .ok ()) =>
      ({ w with pool, cacheLeases := Function.update w.cacheLeases phys (w.cacheLeases phys - 1) }, .ok ())
  | .addInflightRef phys =>
    match w.pool.addInflightRef phys with
    | (pool, .error e) => ({ w with pool }, .error e)
    | (pool, .ok ()) =>
      ({ w with pool, inflightLeases := Function.update w.inflightLeases phys (w.inflightLeases phys + 1) }, .ok ())
  | .releaseInflightRef phys =>
    match w.pool.releaseInflightRef phys with
    | (pool, .error e) => ({ w with pool }, .error e)
    | (pool, .ok ()) =>
      ({ w with pool, inflightLeases := Function.update w.inflightLeases phys (w.inflightLeases phys - 1) }, .ok ())
  | .drainCompleted => ({ w with pool := w.pool.drainCompleted.1 }, .ok ())

/-- The world after some calls. -/
def run (ops : List (PoolOp k)) : World k := ops.foldl (fun w op => (w.step op).1) w

/-- A table maps the page, or the cache owns it. -/
def Held (p : Nat) : Prop := 0 < w.mapped p ∨ 0 < w.cacheLeases p

/-- Leases are taken on held pages, and released by a holder. -/
def LeasesKept : PoolOp k → Prop
  | .addCacheRef phys | .addInflightRef phys => w.Held phys
  | .releaseCacheRef phys => 0 < w.cacheLeases phys
  | .releaseInflightRef phys => 0 < w.inflightLeases phys
  | _ => True

/-- And only held pages are attached. -/
def Allowed (op : PoolOp k) : Prop :=
  w.LeasesKept op ∧ match op with
    | .attach _ phys => w.Held phys
    | _ => True

end World

/-- Every call of a run meets a condition in the world it is made in. -/
def RunOf {k : Nat} (P : World k → PoolOp k → Prop) : World k → List (PoolOp k) → Prop
  | _, [] => True
  | w, op :: ops => P w op ∧ RunOf P (w.step op).1 ops

end Hipfire.Pages

import Hipfire.Base.Checks
import Hipfire.Pages.Meta
/-!
# Pool — the paged KV allocator (`page_pool.rs`)

A pool keeps the metadata of every physical page, the free list and the queue of pages that wait for in-flight reads.  Each
function returns the pool as the call leaves it, also where the call is refused.  The free list is kept with the page to be
taken next in front, which is the end of the source's vector.
-/
namespace Hipfire.Pages

/-- The name that `{:?}` prints. -/
def PageState.debug : PageState → String
  | .free           => "Free"
  | .priv           => "Private"
  | .sealed         => "Sealed"
  | .cacheOnly      => "CacheOnly"
  | .reclaimPending => "ReclaimPending"

/-- A session's block table: physical pages by logical page, and the tokens that are live in them. -/
structure BlockTable where
  pages : List Nat
  liveTokens : Nat
deriving DecidableEq, Repr

def BlockTable.new : BlockTable := ⟨[], 0⟩

def BlockTable.physical (table : BlockTable) (lp : Nat) : Option Nat := table.pages[lp]?

def BlockTable.pushPage (table : BlockTable) (page : Nat) : BlockTable := { table with pages := table.pages ++ [page] }

/-- `set_page`: nothing happens outside the table. -/
def BlockTable.setPage (table : BlockTable) (lp phys : Nat) : BlockTable := { table with pages := table.pages.set lp phys }

/-- `truncate`: the table cut to `n` pages. -/
def BlockTable.truncate (table : BlockTable) (n : Nat) : BlockTable :=
  ⟨table.pages.take n, min table.liveTokens (n * pageTokens)⟩

structure CowCopy where
  logicalPage : Nat
  srcPhys : Nat
  dstPhys : Nat
  validPrefixTokens : Nat
  kCopyBytes : Nat
  vCopyBytes : Nat
deriving DecidableEq, Repr

structure CowPlan where
  copies : List CowCopy
  armed : Bool
deriving DecidableEq, Repr

/-- The pages that a plan has reserved. -/
def CowPlan.reserved (plan : CowPlan) : List Nat := plan.copies.map CowCopy.dstPhys

structure PagePool where
  nPages : Nat
  kPerPosBytes : Nat
  vPerPosBytes : Nat
  freePages : List Nat
  pageMeta : Nat → PageMeta
  reclaimPending : List Nat
  epoch : Nat

/-- `with_checked_metadata`: every page free, page zero to be taken first. -/
def PagePool.new (nPages kPerPosBytes vPerPosBytes : Nat) : PagePool where
  nPages := nPages
  kPerPosBytes := kPerPosBytes
  vPerPosBytes := vPerPosBytes
  freePages := List.range nPages
  pageMeta := fun _ => .fresh
  reclaimPending := []
  epoch := 0

namespace PagePool

variable (pool : PagePool)

def setMeta (phys : Nat) (m : PageMeta) : PagePool := { pool with pageMeta := Function.update pool.pageMeta phys m }

def checkPhys (phys : Nat) : Except String Unit :=
  if phys < pool.nPages then .ok () else .error s!"PagePool: phys {phys} out of bounds (n_pages={pool.nPages})"

/-! ## Moving one page -/

/-- Put a page without references back on the free list. -/
def free (phys : Nat) (m : PageMeta) : PagePool :=
  { pool.setMeta phys { m with state := .free, generation := wrappingInc m.generation } with
    freePages := phys :: pool.freePages }

/-- Queue a page until its in-flight reads are done. -/
def queue (phys : Nat) (m : PageMeta) : PagePool :=
  { pool.setMeta phys { m with state := .reclaimPending } with reclaimPending := pool.reclaimPending ++ [phys] }

def decTableRef (phys : Nat) : PagePool × Except String Unit :=
  match pool.checkPhys phys with
  | .error e => (pool, .error e)
  | .ok () =>
    let m := pool.pageMeta phys
    if m.tableRefs = 0 then
      (pool, .error s!"dec_table_ref: table_refs underflow for phys {phys} (state={m.state.debug})")
    else
      let m' := { m with tableRefs := m.tableRefs - 1 }
      if m'.tableRefs = 0 then
        if 0 < m.cacheRefs then (pool.setMeta phys { m' with state := .cacheOnly }, .ok ())
        else if 0 < m.inflightRefs then (pool.queue phys m', .ok ())
        else (pool.free phys m', .ok ())
      else (pool.setMeta phys m', .ok ())

/-- `release_reserved`: the table references are dropped, however many there are. -/
def releaseReserved (phys : Nat) : PagePool := pool.free phys { pool.pageMeta phys with tableRefs := 0 }

/-- Take the next free page for one table, if there is one. -/
def takePage : Option (PagePool × Nat) :=
  match pool.freePages with
  | [] => none
  | page :: rest =>
    let m := pool.pageMeta page
    some ({ pool.setMeta page { m with state := .priv, generation := wrappingInc m.generation, tableRefs := 1 } with
      freePages := rest }, page)

/-! ## Allocation -/

/-- Append fresh pages to a table, with their handles; it ends early when no page is free. -/
def allocLoop : Nat → PagePool → BlockTable → PagePool × BlockTable × List PageHandle
  | 0, pool, table => (pool, table, [])
  | n + 1, pool, table =>
    match pool.takePage with
    | none => (pool, table, [])
    | some (pool', page) =>
      let (pool'', table', handles) := allocLoop n pool' (table.pushPage page)
      (pool'', table', ⟨page, pool.epoch, (pool'.pageMeta page).generation⟩ :: handles)

/-- `alloc_pages`: as many pages as there are, up to `n`. -/
def allocPages (table : BlockTable) (n : Nat) : PagePool × BlockTable × Nat :=
  let canAlloc := min n pool.freePages.length
  let (pool', table', _) := allocLoop canAlloc pool table
  (pool', table', canAlloc)

def allocPagesChecked (table : BlockTable) (n : Nat) : PagePool × BlockTable × Except String (List PageHandle) :=
  if pool.freePages.length < n then
    (pool, table, .error s!"PagePool: need {n} pages but only {pool.freePages.length} free")
  else
    let (pool', table', handles) := allocLoop n pool table
    (pool', table', .ok handles)

/-- `ensure_capacity`: enough pages for `n` tokens, which become the live ones. -/
def ensureCapacity (table : BlockTable) (n : Nat) : PagePool × BlockTable × Except String Nat :=
  let neededPages := (n + (pageTokens - 1)) / pageTokens
  let currentPages := table.pages.length
  if neededPages ≤ currentPages then (pool, { table with liveTokens := n }, .ok 0)
  else
    let toAlloc := neededPages - currentPages
    if pool.freePages.length < toAlloc then
      (pool, table, .error (s!"PagePool: need {toAlloc} more pages but only {pool.freePages.length} free " ++
        s!"({n} tokens requested, {currentPages} pages allocated)"))
    else
      let (pool', table', allocated) := pool.allocPages table toAlloc
      (pool', { table' with liveTokens := n }, .ok allocated)

/-! ## Sharing -/

/-- Share the listed pages with a table.  A refused reference leaves what is shared so far. -/
def shareLoop : List Nat → PagePool → BlockTable → PagePool × BlockTable × Except String Unit
  | [], pool, dst => (pool, dst, .ok ())
  | phys :: rest, pool, dst =>
    match pool.checkPhys phys with
    | .error e => (pool, dst, .error e)
    | .ok () =>
      let m := pool.pageMeta phys
      match checkedInc m.tableRefs with
      | none => (pool, dst, .error s!"share_prefix: refcount overflow for phys {phys}")
      | some refs => shareLoop rest (pool.setMeta phys { m with tableRefs := refs, state := .sealed }) (dst.pushPage phys)

/-- `share_prefix`: the first `n` pages of `src`, all full, become the pages of the empty table `dst`. -/
def sharePrefix (src dst : BlockTable) (n : Nat) : PagePool × BlockTable × Except String Unit :=
  let srcPages := src.pages.length
  let covered := n * pageTokens
  if srcPages < n then (pool, dst, .error s!"share_prefix: src has {srcPages} pages but {n} requested")
  else if src.liveTokens < covered then
    (pool, dst, .error (s!"share_prefix: sharing {n} pages covers {covered} tokens but src has only " ++
      s!"{src.liveTokens} live — refusing to share a partially-filled page without copy-on-write " ++
      "(would corrupt src on its next append)"))
  else if dst.pages.length ≠ 0 then
    (pool, dst, .error (s!"share_prefix: dst already holds {dst.pages.length} pages — sharing is only defined " ++
      "into an empty table (fork point must be the start of dst's KV)"))
  else shareLoop (src.pages.take n) pool dst

/-- A page can be referenced: it is neither free nor queued. -/
def checkOwned (name free pending : String) (phys : Nat) : Except String Unit :=
  match pool.checkPhys phys with
  | .error e => .error e
  | .ok () =>
    let m := pool.pageMeta phys
    if m.state = .free then .error s!"{name}: phys {phys} {free}"
    else if m.state = .reclaimPending then .error s!"{name}: phys {phys} {pending}"
    else .ok ()

def repinning : String := "is ReclaimPending — re-pinning a page queued for reclaim is refused"

/-- `refcount_inc`: one more table reference; a private page becomes immutable. -/
def refcountInc (phys : Nat) : PagePool × Except String Unit :=
  match pool.checkOwned "refcount_inc" "is Free"
      "is ReclaimPending — cannot attach a table to a page queued for reclaim" phys with
  | .error e => (pool, .error e)
  | .ok () =>
    let m := pool.pageMeta phys
    match checkedInc m.tableRefs with
    | none => (pool, .error s!"refcount_inc: overflow for phys {phys}")
    | some refs =>
      (pool.setMeta phys { m with tableRefs := refs, state := if m.state = .priv then .sealed else m.state }, .ok ())

/-! ## Release -/

/-- Drop one table reference of each page; the first error is kept, the rest goes on. -/
def decEach : List Nat → PagePool → PagePool × Bool
  | [], pool => (pool, false)
  | phys :: rest, pool =>
    let (pool', result) := pool.decTableRef phys
    let (pool'', failed) := decEach rest pool'
    (pool'', failed || match result with | .ok () => false | .error _ => true)

/-- `release_table`: the table is cleared also when a reference was missing. -/
def releaseTable (table : BlockTable) : PagePool × BlockTable × Except String Unit :=
  let (pool', failed) := decEach table.pages pool
  (pool', .new, if failed then .error "release_table: refcount underflow on one or more pages" else .ok ())

/-- Drop one table reference of each page, up to the first error. -/
def decAll : List Nat → PagePool → PagePool × Except String Unit
  | [], pool => (pool, .ok ())
  | phys :: rest, pool =>
    match pool.decTableRef phys with
    | (pool', .error e) => (pool', .error e)
    | (pool', .ok ()) => decAll rest pool'

def checkTail (phys : Nat) : Except String Unit :=
  let m := pool.pageMeta phys
  if m.tableRefs = 0 then
    .error s!"free_pages_from_tail: table_refs underflow for phys {phys} (state={m.state.debug}) — table unchanged"
  else .ok ()

def freePagesFromTail (table : BlockTable) (n : Nat) : PagePool × BlockTable × Except String Unit :=
  let keep := table.pages.length - n
  match firstError pool.checkTail (table.pages.drop keep) with
  | .error e => (pool, table, .error e)
  | .ok () =>
    let (pool', result) := decAll (table.pages.drop keep) pool
    (pool', table.truncate keep, result)

/-- `seal`: a private page becomes immutable. -/
def sealPage (phys : Nat) : PagePool × Except String Unit :=
  match pool.checkPhys phys with
  | .error e => (pool, .error e)
  | .ok () =>
    let m := pool.pageMeta phys
    match m.state with
    | .priv => (pool.setMeta phys { m with state := .sealed }, .ok ())
    | .sealed => (pool, .ok ())
    | state   => (pool, .error s!"seal: phys {phys} is {state.debug}, cannot seal")

/-! ## Copy-on-write -/

def releaseAll (pages : List Nat) (pool : PagePool) : PagePool := pages.foldl releaseReserved pool

/-- Reserve a page for every immutable page among some logical pages; without a free page, all are given back. -/
def planLoop (table : BlockTable) (writeStart : Nat) : List Nat → List CowCopy → PagePool → PagePool × Except String (List CowCopy)
  | [], copies, pool => (pool, .ok copies)
  | lp :: lps, copies, pool =>
    match table.physical lp with
    | none => planLoop table writeStart lps copies pool
    | some phys =>
      let state := (pool.pageMeta phys).state
      if state = .sealed ∨ state = .cacheOnly then
        match pool.takePage with
        | none => (releaseAll (copies.map CowCopy.dstPhys) pool,
            .error s!"plan_cow: OOM — need COW page for logical {lp} (phys {phys}, state={state.debug}) but no free pages")
        | some (pool', dst) =>
          let valid := min (writeStart - lp * pageTokens) pageTokens
          planLoop table writeStart lps
            (copies ++ [⟨lp, phys, dst, valid, valid * pool.kPerPosBytes, valid * pool.vPerPosBytes⟩]) pool'
      else planLoop table writeStart lps copies pool

/-- The logical pages that a write interval touches. -/
def touchedPages (writeStart writeEnd : Nat) : List Nat :=
  List.range' (writeStart / pageTokens) ((writeEnd - 1) / pageTokens + 1 - writeStart / pageTokens)

def planCow (table : BlockTable) (writeStart writeEnd : Nat) : PagePool × Except String CowPlan :=
  if writeEnd < writeStart then (pool, .error "plan_cow: write_end < write_start")
  else if writeEnd = writeStart then (pool, .ok ⟨[], false⟩)
  else match planLoop table writeStart (touchedPages writeStart writeEnd) [] pool with
    | (pool', .error e) => (pool', .error e)
    | (pool', .ok copies) => (pool', .ok ⟨copies, true⟩)

/-- The check of one copy before a commit. -/
def checkCopy (table : BlockTable) (c : CowCopy) : Except String Unit :=
  if table.physical c.logicalPage = some c.srcPhys then
    if (pool.pageMeta c.srcPhys).tableRefs = 0 then
      .error s!"commit_cow: src phys {c.srcPhys} has table_refs=0 — aborted"
    else .ok ()
  else
    let got := match table.physical c.logicalPage with | some phys => toString phys | none => "none"
    .error s!"commit_cow: logical page {c.logicalPage} maps to {got} not src {c.srcPhys} — table changed since plan_cow; aborted"

def commitLoop : List CowCopy → PagePool → BlockTable → PagePool × BlockTable × Except String Unit
  | [], pool, table => (pool, table, .ok ())
  | c :: copies, pool, table =>
    match pool.decTableRef c.srcPhys with
    | (pool', .error e) => (pool', table.setPage c.logicalPage c.dstPhys, .error e)
    | (pool', .ok ()) => commitLoop copies pool' (table.setPage c.logicalPage c.dstPhys)

def commitCow (table : BlockTable) (plan : CowPlan) : PagePool × BlockTable × Except String Unit :=
  match firstError (pool.checkCopy table) plan.copies with
  | .error e => (releaseAll plan.reserved pool, table, .error e)
  | .ok () => commitLoop plan.copies pool table

def abortCow (plan : CowPlan) : PagePool := releaseAll plan.reserved pool

/-! ## Leases -/

def addInflightRef (phys : Nat) : PagePool × Except String Unit :=
  match pool.checkOwned "add_inflight_ref" "is Free" repinning phys with
  | .error e => (pool, .error e)
  | .ok () =>
    let m := pool.pageMeta phys
    match checkedInc m.inflightRefs with
    | none => (pool, .error s!"add_inflight_ref: overflow for phys {phys}")
    | some refs => (pool.setMeta phys { m with inflightRefs := refs }, .ok ())

/-- `release_inflight_ref`: a queued page stays queued. -/
def releaseInflightRef (phys : Nat) : PagePool × Except String Unit :=
  match pool.checkPhys phys with
  | .error e => (pool, .error e)
  | .ok () =>
    let m := pool.pageMeta phys
    if m.inflightRefs = 0 then (pool, .error s!"release_inflight_ref: underflow for phys {phys}")
    else (pool.setMeta phys { m with inflightRefs := m.inflightRefs - 1 }, .ok ())

/-- Free the queued pages without references: the pool, the pages freed and those still queued. -/
def drainLoop : List Nat → PagePool → PagePool × List Nat × List Nat
  | [], pool => (pool, [], [])
  | phys :: rest, pool =>
    let m := pool.pageMeta phys
    if m.inflightRefs = 0 ∧ m.tableRefs = 0 ∧ m.cacheRefs = 0 then
      let (pool', freed, still) := drainLoop rest (pool.free phys m)
      (pool', phys :: freed, still)
    else
      let (pool', freed, still) := drainLoop rest pool
      (pool', freed, phys :: still)

def drainCompleted : PagePool × List Nat :=
  let (pool', freed, still) := drainLoop pool.reclaimPending pool
  ({ pool' with reclaimPending := still }, freed)

/-- `add_cache_ref`: one more cache lease; a private page becomes immutable. -/
def addCacheRef (phys : Nat) : PagePool × Except String Unit :=
  match pool.checkOwned "add_cache_ref" "is Free" repinning phys with
  | .error e => (pool, .error e)
  | .ok () =>
    let m := pool.pageMeta phys
    match checkedInc m.cacheRefs with
    | none => (pool, .error s!"add_cache_ref: overflow for phys {phys}")
    | some refs =>
      (pool.setMeta phys { m with cacheRefs := refs, state := if m.state = .priv then .sealed else m.state }, .ok ())

def releaseCacheRef (phys : Nat) : PagePool × Except String Unit :=
  match pool.checkPhys phys with
  | .error e => (pool, .error e)
  | .ok () =>
    let m := pool.pageMeta phys
    if m.cacheRefs = 0 then (pool, .error s!"release_cache_ref: underflow for phys {phys}")
    else
      let m' := { m with cacheRefs := m.cacheRefs - 1 }
      if m'.tableRefs = 0 ∧ m'.cacheRefs = 0 then
        if 0 < m.inflightRefs then (pool.queue phys m', .ok ()) else (pool.free phys m', .ok ())
      else (pool.setMeta phys m', .ok ())

end PagePool

end Hipfire.Pages

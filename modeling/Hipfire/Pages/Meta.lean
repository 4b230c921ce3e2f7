import Hipfire.Base.Machine
/-!
# Meta — the types of the paged KV allocator

The physical types of `page_pool.rs`: a page's lifecycle state, its metadata with the reference counts of each lease
class, and the handle a caller keeps to one allocation of it.
-/
namespace Hipfire.Pages

/-- `PAGE_TOKENS`: the positions one physical page holds. -/
def pageTokens : Nat := 128

inductive PageState where
  | free
  | priv
  | sealed
  | cacheOnly
  | reclaimPending
deriving DecidableEq, Repr

/-- One allocation of a physical page: stale once the page's generation has moved on. -/
structure PageHandle where
  phys : Nat
  epoch : Nat
  generation : Nat
deriving DecidableEq, Repr

structure PageMeta where
  state : PageState
  generation : Nat
  tableRefs : Nat
  cacheRefs : Nat
  inflightRefs : Nat
deriving DecidableEq, Repr

/-- `PageMeta::free()`. -/
def PageMeta.fresh : PageMeta := ⟨.free, 0, 0, 0, 0⟩

/-- Resident: on neither the free list nor the reclaim queue. -/
def PageState.resident : PageState → Bool
  | .priv | .sealed | .cacheOnly => true
  | .free | .reclaimPending => false

end Hipfire.Pages

import Hipfire.Base.Writes
/-!
# Streams — byte streams laid out over buffers

A stream is a run of bytes of one buffer, each with its address.  What is read from some streams in order and written to
others of the same lengths is found there again, if no address of the others occurs twice.
-/
namespace Hipfire

open List

universe u v
variable {β : Type u} {V : Type v}

/-- `len` bytes of a buffer; byte `x` is at `addr x`. -/
structure Stream (β : Type u) where
  buf : β
  len : Nat
  addr : Nat → Nat

namespace Stream

def cells (s : Stream β) : List (β × Nat) := (range s.len).map fun x => (s.buf, s.addr x)

theorem length_cells (s : Stream β) : s.cells.length = s.len := by
  simp [cells]

theorem mem_cells {s : Stream β} {c : β × Nat} : c ∈ s.cells ↔ ∃ x < s.len, (s.buf, s.addr x) = c := by
  simp [cells]

/-- The addresses of a stream differ. -/
def Injective (s : Stream β) : Prop := ∀ x y, x < s.len → y < s.len → s.addr x = s.addr y → x = y

theorem nodup_cells {s : Stream β} (h : s.Injective) : s.cells.Nodup := by
  refine Nodup.map_on (fun x hx y hy hxy => ?_) nodup_range
  exact h x y (mem_range.1 hx) (mem_range.1 hy) (Prod.ext_iff.1 hxy).2

/-- **Streams of different buffers have no cell in common.** -/
theorem nodup_flatMap_cells {ss : List (Stream β)} (hbuf : (ss.map Stream.buf).Nodup) (hinj : ∀ s ∈ ss, s.Injective) :
    (ss.flatMap cells).Nodup := by
  refine nodup_flatMap.2 ⟨fun s hs => nodup_cells (hinj s hs), ?_⟩
  refine (pairwise_map.1 hbuf).imp fun {s t} hne c hs ht => hne ?_
  obtain ⟨x, -, rfl⟩ := mem_cells.1 hs
  obtain ⟨y, -, hy⟩ := mem_cells.1 ht
  exact (Prod.ext_iff.1 hy).1.symm

theorem length_flatMap_cells (ss : List (Stream β)) : (ss.flatMap cells).length = (ss.map Stream.len).sum := by
  rw [length_flatMap]
  exact congrArg sum (map_congr_left fun s _ => s.length_cells)

/-- A byte of a stream meets, in the zip of all cells, the byte of its partner. -/
theorem mem_zip_cells (f : β × Nat → V) : ∀ {ss ts : List (Stream β)} {i x : Nat} {s t : Stream β},
    ss.map Stream.len = ts.map Stream.len → ss[i]? = some s → ts[i]? = some t → x < t.len →
    ((t.buf, t.addr x), f (s.buf, s.addr x)) ∈ (ts.flatMap cells).zip ((ss.flatMap cells).map f)
  | s₀ :: ss, t₀ :: ts, i, x, s, t, hlen, hs, ht, hx => by
    rw [map_cons, map_cons, cons.injEq] at hlen
    have hcells : t₀.cells.length = (s₀.cells.map f).length := by
      rw [length_map, length_cells, length_cells, hlen.1]
    rw [flatMap_cons, flatMap_cons, map_append, zip_append hcells, mem_append]
    cases i with
    | zero =>
      cases hs
      cases ht
      refine .inl (mem_iff_getElem?.2 ⟨x, ?_⟩)
      have hxs : x < s₀.len := hlen.1 ▸ hx
      simp [cells, hx, hxs]
    | succ i => exact .inr (mem_zip_cells f hlen.2 hs ht hx)
  | [], _, _, _, _, _, _, hs, _, _ => by cases hs
  | _ :: _, [], _, _, _, _, _, _, ht, _ => by cases ht

/-- **What was read from the streams is found in their partners.** -/
theorem writeAll_cells [DecidableEq β] {ss ts : List (Stream β)} {i x : Nat} {s t : Stream β} {mem mem' : β × Nat → V}
    (hlen : ss.map Stream.len = ts.map Stream.len) (hnd : (ts.flatMap cells).Nodup) (hs : ss[i]? = some s)
    (ht : ts[i]? = some t) (hx : x < t.len) :
    writeAll ((ts.flatMap cells).zip ((ss.flatMap cells).map mem)) mem' (t.buf, t.addr x) = mem (s.buf, s.addr x) := by
  refine writeAll_of_nodup ?_ (mem_zip_cells mem hlen hs ht hx)
  have hsame : (ts.flatMap cells).length ≤ ((ss.flatMap cells).map mem).length := by
    rw [length_map, length_flatMap_cells, length_flatMap_cells]
    exact Nat.le_of_eq (congrArg sum hlen.symm)
  rwa [map_fst_zip hsame]

end Stream

theorem writeAll_append [DecidableEq β] : ∀ (ws ws' : List (β × V)) (mem : β → V),
    writeAll (ws ++ ws') mem = writeAll ws' (writeAll ws mem)
  | [], _, _ => rfl
  | (a, v) :: ws, ws', mem => writeAll_append ws ws' (Function.update mem a v)

end Hipfire

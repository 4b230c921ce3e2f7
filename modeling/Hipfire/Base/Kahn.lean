import Hipfire.Base.Graph
import Hipfire.Base.Lists
import Hipfire.Base.OrdSet
/-!
# Kahn — topological sorting by in-degrees, the least ready node first

`kahn lt V E` pops the least node of in-degree zero, appends it to the order and lowers the in-degrees of its successors,
until no node is ready.  On an acyclic graph it lists every node (`kahn_perm`), and each node of the result is the least
one whose predecessors all come before (`kahn_leastFirst`).
-/
namespace Hipfire

open List Function

variable {α : Type} [DecidableEq α]

def indegrees (E : List (α × α)) : α → Nat :=
  E.foldl (fun deg e => Function.update deg e.2 (deg e.2 + 1)) (fun _ => 0)

/-- Lower the in-degree of each target by one; a target left with none becomes ready. -/
def releaseTargets (lt : α → α → Bool) (targets : List α) (deg : α → Nat) (ready : List α) : (α → Nat) × List α :=
  targets.foldl (fun s t =>
    (Function.update s.1 t (s.1 t - 1), if s.1 t - 1 = 0 then ordInsert lt t s.2 else s.2)) (deg, ready)

/-- The loop, with the nodes ready to be taken, the in-degrees and the order so far. -/
def kahnLoop (lt : α → α → Bool) (E : List (α × α)) : Nat → List α → (α → Nat) → List α → List α × (α → Nat)
  | 0, _, deg, order => (order, deg)
  | _ + 1, [], deg, order => (order, deg)
  | fuel + 1, v :: ready, deg, order =>
    kahnLoop lt E fuel (releaseTargets lt (succsOf E v) deg ready).2 (releaseTargets lt (succsOf E v) deg ready).1
      (order ++ [v])

/-- The order found, and the in-degrees left. -/
def kahn (lt : α → α → Bool) (V : List α) (E : List (α × α)) : List α × (α → Nat) :=
  kahnLoop lt E V.length
    ((V.filter (fun v => decide (indegrees E v = 0))).foldl (fun ready v => ordInsert lt v ready) []) (indegrees E) []

/-! ## One step -/

theorem foldl_indegrees : ∀ (E : List (α × α)) (deg : α → Nat) (v : α),
    E.foldl (fun deg e => update deg e.2 (deg e.2 + 1)) deg v = deg v + E.countP (fun e => decide (e.2 = v))
  | [], deg, v => by simp
  | e :: E, deg, v => by
    rw [foldl_cons, foldl_indegrees E, countP_cons]
    by_cases h : e.2 = v
    · subst h; simp; omega
    · simp [h, update_of_ne (Ne.symm h)]

/-- The arcs into `v` whose source is not yet ordered. -/
def openPreds (E : List (α × α)) (order : List α) (v : α) : Nat :=
  E.countP (fun e => decide (e.2 = v) && decide (e.1 ∉ order))

variable (E : List (α × α))

theorem indegrees_eq (v : α) : indegrees E v = openPreds E [] v := by
  unfold indegrees openPreds
  rw [foldl_indegrees]
  simp

theorem openPreds_append (order : List α) (v t : α) (hv : v ∉ order) :
    openPreds E (order ++ [v]) t = openPreds E order t - (succsOf E v).count t ∧
      (succsOf E v).count t ≤ openPreds E order t := by
  suffices h : openPreds E (order ++ [v]) t + (succsOf E v).count t = openPreds E order t by omega
  induction E with
  | nil => simp [openPreds, succsOf]
  | cons e E ih =>
    simp only [openPreds, succsOf, countP_cons, mem_append, mem_singleton, not_or] at ih ⊢
    by_cases h1 : e.1 = v
    · subst h1
      by_cases h2 : e.2 = t
      · simp [h2, hv] at ih ⊢; omega
      · simp [h2] at ih ⊢; omega
    · by_cases h2 : e.2 = t
      · by_cases h3 : e.1 ∈ order <;> simp [h1, h2, h3] at ih ⊢ <;> omega
      · simp [h1, h2] at ih ⊢; omega

theorem openPreds_eq_zero (order : List α) (v : α) : openPreds E order v = 0 ↔ ∀ u, Arc E u v → u ∈ order := by
  unfold openPreds Arc
  rw [countP_eq_zero]
  simp only [Bool.and_eq_true, decide_eq_true_eq, not_and, not_not]
  exact ⟨fun h u hu => h (u, v) hu rfl, fun h e he hv => h e.1 (hv ▸ he)⟩

section release

variable {lt : α → α → Bool} (hlt : TotalLt lt)
include hlt

theorem releaseTargets_spec : ∀ (ts : List α) (deg : α → Nat) (ready : List α), Increasing lt ready →
    (∀ u, (releaseTargets lt ts deg ready).1 u = deg u - ts.count u) ∧
    Increasing lt (releaseTargets lt ts deg ready).2 ∧
    ∀ u, u ∈ (releaseTargets lt ts deg ready).2 ↔ u ∈ ready ∨ (u ∈ ts ∧ deg u ≤ ts.count u)
  | [], deg, ready, hr => ⟨by simp [releaseTargets], hr, by simp [releaseTargets]⟩
  | t :: ts, deg, ready, hr => by
    have hr' : Increasing lt (if deg t - 1 = 0 then ordInsert lt t ready else ready) := by
      split
      · exact increasing_ordInsert hlt t ready hr
      · exact hr
    obtain ⟨h1, h2, h3⟩ := releaseTargets_spec ts (update deg t (deg t - 1)) _ hr'
    have hstep : releaseTargets lt (t :: ts) deg ready = releaseTargets lt ts (update deg t (deg t - 1))
      (if deg t - 1 = 0 then ordInsert lt t ready else ready) := rfl
    rw [hstep]
    refine ⟨fun u => ?_, h2, fun u => ?_⟩
    · rw [h1]
      by_cases hu : u = t
      · subst hu; simp; omega
      · simp [hu, Ne.symm hu]
    · rw [h3]
      by_cases hu : u = t
      · subst hu
        rcases Nat.eq_zero_or_pos (ts.count u) with hc | hc
        · have hn : u ∉ ts := count_eq_zero.1 hc
          split
          · rw [mem_ordInsert hlt]; simp [hn]; omega
          · simp [hn]; omega
        · have hn : u ∈ ts := count_pos_iff.1 hc
          split
          · rw [mem_ordInsert hlt]; simp [hn]; omega
          · simp [hn]
      · have hmem : u ∈ (if deg t - 1 = 0 then ordInsert lt t ready else ready) ↔ u ∈ ready := by
          split
          · rw [mem_ordInsert hlt]; simp [hu]
          · rfl
        simp [hmem, hu, Ne.symm hu]

end release

/-! ## The run -/

/-- Each node comes after its predecessors, and is the least of those that could have come there. -/
structure LeastFirst (lt : α → α → Bool) (V : List α) (E : List (α × α)) (order : List α) : Prop where
  preds : ∀ pre v post, order = pre ++ v :: post → ∀ u, Arc E u v → u ∈ pre
  least : ∀ pre v post, order = pre ++ v :: post → ∀ u ∈ V, u ∉ pre → (∀ w, Arc E w u → w ∈ pre) → u = v ∨ lt v u = true

structure KahnInv (lt : α → α → Bool) (V : List α) (E : List (α × α)) (ready : List α) (deg : α → Nat) (order : List α) :
    Prop where
  nodup : order.Nodup
  sub : ∀ v ∈ order, v ∈ V
  increasing : Increasing lt ready
  deg_eq : ∀ v, deg v = openPreds E order v
  ready_iff : ∀ v, v ∈ ready ↔ v ∈ V ∧ v ∉ order ∧ ∀ u, Arc E u v → u ∈ order
  first : LeastFirst lt V E order

section run

variable {lt : α → α → Bool} (hlt : TotalLt lt) {V : List α} {E : List (α × α)}
include hlt

theorem kahnInv_init : KahnInv lt V E
    ((V.filter (fun v => decide (indegrees E v = 0))).foldl (fun ready v => ordInsert lt v ready) []) (indegrees E) [] := by
  obtain ⟨h1, h2⟩ := foldl_ordInsert hlt (V.filter (fun v => decide (indegrees E v = 0))) [] Pairwise.nil
  refine ⟨nodup_nil, by simp, h1, indegrees_eq E, fun v => ?_, ⟨by simp, by simp⟩⟩
  rw [h2, mem_filter, decide_eq_true_eq, indegrees_eq, openPreds_eq_zero]
  simp

theorem kahnInv_step (hE : ∀ a b, Arc E a b → a ∈ V ∧ b ∈ V) {v : α} {ready order : List α} {deg : α → Nat}
    (h : KahnInv lt V E (v :: ready) deg order) :
    KahnInv lt V E (releaseTargets lt (succsOf E v) deg ready).2 (releaseTargets lt (succsOf E v) deg ready).1
      (order ++ [v]) := by
  obtain ⟨hvV, hvo, hvp⟩ := (h.ready_iff v).1 (by simp)
  obtain ⟨h1, h2, h3⟩ := releaseTargets_spec hlt (succsOf E v) deg ready h.increasing.of_cons
  have hsplit : ∀ pre w post, order ++ [v] = pre ++ w :: post →
      (∃ post', order = pre ++ w :: post') ∨ (pre = order ∧ w = v) := by
    intro pre w post he
    rcases cut_cases he.symm with ⟨post', he', -⟩ | ⟨rfl, rfl, -⟩ | ⟨_, -, hnil⟩
    · exact .inl ⟨post', he'⟩
    · exact .inr ⟨rfl, rfl⟩
    · simp at hnil
  have hloop : ¬ Arc E v v := fun ha => hvo (hvp v ha)
  refine ⟨?_, forall_mem_append.2 ⟨h.sub, forall_mem_singleton.2 hvV⟩, h2, fun u => ?_, fun u => ?_,
    ⟨fun pre w post he u hu => ?_, fun pre w post he u hu hup hpre => ?_⟩⟩
  · rw [← concat_eq_append, nodup_concat]
    exact ⟨hvo, h.nodup⟩
  · rw [h1, h.deg_eq, (openPreds_append E order v u hvo).1]
  · obtain ⟨ho1, ho2⟩ := openPreds_append E order v u hvo
    -- the nodes ready now were ready before, or lost their last open predecessor with this one
    rw [h3, h.deg_eq, mem_succsOf, ← openPreds_eq_zero, ho1, mem_append, mem_singleton, not_or]
    constructor
    · rintro (hu | ⟨hu, hc⟩)
      · obtain ⟨h4, h5, h6⟩ := (h.ready_iff u).1 (mem_cons_of_mem _ hu)
        have := (openPreds_eq_zero E order u).2 h6
        have hvr := (nodup_cons.1 (h.increasing.nodup hlt)).1
        exact ⟨h4, ⟨h5, fun he => hvr (he ▸ hu)⟩, by omega⟩
      · refine ⟨(hE v u hu).2, ⟨fun huo => ?_, fun he => hloop (he ▸ hu)⟩, by omega⟩
        obtain ⟨pre, post, he⟩ := append_of_mem huo
        have := h.first.preds pre u post he v hu
        exact hvo (he ▸ mem_append_left _ this)
    · rintro ⟨h4, ⟨h5, h6⟩, h7⟩
      by_cases hu : Arc E v u
      · exact .inr ⟨hu, by omega⟩
      have hz : (succsOf E v).count u = 0 := count_eq_zero.2 (fun hm => hu (mem_succsOf.1 hm))
      have : u ∈ v :: ready := (h.ready_iff u).2 ⟨h4, h5, (openPreds_eq_zero E order u).1 (by omega)⟩
      rcases mem_cons.1 this with he | hr
      · exact absurd he h6
      · exact .inl hr
  · rcases hsplit pre w post he with ⟨post', he'⟩ | ⟨rfl, rfl⟩
    · exact h.first.preds pre w post' he' u hu
    · exact hvp u hu
  · rcases hsplit pre w post he with ⟨post', he'⟩ | ⟨rfl, rfl⟩
    · exact h.first.least pre w post' he' u hu hup hpre
    · rcases mem_cons.1 ((h.ready_iff u).2 ⟨hu, hup, hpre⟩) with he | hr
      · exact .inl he
      · exact .inr (rel_of_pairwise_cons h.increasing hr)

/-- **The loop keeps the invariant and stops with nothing ready**, given one unit of fuel for each node left. -/
theorem kahnLoop_inv (hV : V.Nodup) (hE : ∀ a b, Arc E a b → a ∈ V ∧ b ∈ V) : ∀ (fuel : Nat) (ready : List α) (deg : α → Nat)
    (order : List α), KahnInv lt V E ready deg order → V.length ≤ fuel + order.length →
    KahnInv lt V E [] (kahnLoop lt E fuel ready deg order).2 (kahnLoop lt E fuel ready deg order).1
  | 0, [], deg, order, h, _ => h
  | 0, v :: ready, deg, order, h, hf => by
    exfalso
    obtain ⟨hvV, hvo, -⟩ := (h.ready_iff v).1 (by simp)
    have hsub : (v :: order).Subperm V := subperm_of_subset (nodup_cons.2 ⟨hvo, h.nodup⟩)
      (cons_subset.2 ⟨hvV, h.sub⟩)
    have := hsub.length_le
    rw [length_cons] at this
    omega
  | _ + 1, [], deg, order, h, _ => h
  | fuel + 1, v :: ready, deg, order, h, hf =>
    kahnLoop_inv hV hE fuel _ _ _ (kahnInv_step hlt hE h) (by rw [length_append, length_singleton]; omega)

variable (hV : V.Nodup) (hE : ∀ a b, Arc E a b → a ∈ V ∧ b ∈ V)
include hV hE

theorem kahn_inv : KahnInv lt V E [] (kahn lt V E).2 (kahn lt V E).1 :=
  kahnLoop_inv hlt hV hE V.length _ _ [] (kahnInv_init hlt) (by simp)

/-- **The order lists every node of an acyclic graph once.** -/
theorem kahn_perm (hA : Acyclic E) : (kahn lt V E).1.Perm V := by
  have h := kahn_inv hlt hV hE
  refine (perm_ext_iff_of_nodup h.nodup hV).2 (fun v => ⟨h.sub v, fun hv => ?_⟩)
  by_contra hvo
  -- among the nodes left out, one has no predecessor left out: it would be ready
  have hne : V.filter (fun v => decide (v ∉ (kahn lt V E).1)) ≠ [] :=
    ne_nil_of_mem (mem_filter.2 ⟨hv, by simpa using hvo⟩)
  obtain ⟨a, ha, hsrc⟩ := exists_source hA _ hne
  obtain ⟨haV, hao⟩ := mem_filter.1 ha
  have hready : a ∈ ([] : List α) := (h.ready_iff a).2 ⟨haV, by simpa using hao, fun u hu => by
    by_contra huo
    exact hsrc u (mem_filter.2 ⟨(hE u a hu).1, by simpa using huo⟩) hu⟩
  cases hready

theorem kahn_leastFirst : LeastFirst lt V E (kahn lt V E).1 := (kahn_inv hlt hV hE).first

theorem kahn_topoOrder (hA : Acyclic E) : TopoOrder E (kahn lt V E).1 := by
  have h := kahn_inv hlt hV hE
  have hperm := kahn_perm hlt hV hE hA
  refine ⟨h.nodup, fun a b hab => ⟨hperm.mem_iff.2 (hE a b hab).1, hperm.mem_iff.2 (hE a b hab).2⟩, ?_,
    fun a ha => hA a (.single ha)⟩
  refine pairwise_of_split fun pre v post he b hb hba => ?_
  have hbpre := h.first.preds pre v post he b hba
  have hnd := h.nodup
  rw [he] at hnd
  exact (nodup_append.1 hnd).2.2 b hbpre b (mem_cons_of_mem _ hb) rfl

end run

section forward

variable {lt : α → α → Bool} {V : List α} {E : List (α × α)} {order : List α} (rank : α → Nat)
omit [DecidableEq α]

/-- With all arcs going up in rank, the node taken next has the least rank of those left. -/
theorem LeastFirst.rank_le (h : LeastFirst lt V E order) (hlt : ∀ a ∈ V, ∀ b ∈ V, lt a b = true → rank a < rank b)
    (hE : ∀ a b, Arc E a b → a ∈ V ∧ rank a < rank b) {pre post : List α} {v : α} (hv : v ∈ V)
    (hsplit : order = pre ++ v :: post) : ∀ (n : Nat) (u : α), rank u = n → u ∈ V → u ∉ pre → rank v ≤ rank u := by
  intro n
  induction n using Nat.strong_induction_on with
  | _ n ih =>
    intro u hu hV hpre
    by_cases hready : ∀ w, Arc E w u → w ∈ pre
    · rcases h.least pre v post hsplit u hV hpre hready with rfl | hvu
      · exact le_rfl
      · exact Nat.le_of_lt (hlt v hv u hV hvu)
    · -- a node that is not ready waits for one of smaller rank that is left as well
      simp only [not_forall] at hready
      obtain ⟨w, hw, hwpre⟩ := hready
      obtain ⟨hwV, hwu⟩ := hE w u hw
      exact Nat.le_trans (ih (rank w) (hu ▸ hwu) w rfl hwV hwpre) (Nat.le_of_lt hwu)

/-- **With all arcs going up in rank, the order is by rank.** -/
theorem LeastFirst.sorted (h : LeastFirst lt V E order) (hperm : order.Perm V)
    (hlt : ∀ a ∈ V, ∀ b ∈ V, lt a b = true → rank a < rank b) (hE : ∀ a b, Arc E a b → a ∈ V ∧ rank a < rank b)
    (hnd : order.Nodup) : order.Pairwise (fun a b => rank a ≤ rank b) := by
  refine pairwise_of_split fun pre v post he b hb => ?_
  have hin : ∀ u ∈ v :: post, u ∈ V := fun u hu => hperm.mem_iff.1 (he ▸ mem_append_right _ hu)
  rw [he] at hnd
  refine h.rank_le rank hlt hE (hin v mem_cons_self) he _ b rfl (hin b (mem_cons_of_mem _ hb)) (fun hpre => ?_)
  exact (nodup_append.1 hnd).2.2 b hpre b (mem_cons_of_mem _ hb) rfl

end forward

end Hipfire

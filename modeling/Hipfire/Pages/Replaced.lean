import Hipfire.Pages.Reclaim
/-!
# Replaced — what a commit knows about the calls since its plan

A commit checks that the table maps every planned logical page to the plan's source.  It compares page numbers only, and the
free list gives back the page freed last, so a page that was freed and allocated again can stand in for the one that was
planned.  A commit that succeeds proves that the allocations are those of the plan exactly if no call in between mapped a
planned page to its source again; then it fails after every truncation that took a planned page (`commit_keeps_iff`).  Pages
behind the planned ones it does not look at.
-/
namespace Hipfire.Pages

open World List

variable {n k : Nat}

/-! ## A plan among the pending ones -/

/-- The place of the pending plan at `i` after a call, unless the call uses it up. -/
def follow (i : Nat) : PoolOp k → Option Nat
  | .commitCow _ j | .abortCow j => if j = i then none else some (if j < i then i - 1 else i)
  | _ => some i

def followAll : Nat → List (PoolOp k) → Option Nat
  | i, [] => some i
  | i, op :: ops => (follow i op).bind (followAll · ops)

variable {plan : CowPlan} {w : World k} {i i' : Nat}

theorem getElem?_eraseIdx_follow {plans : List CowPlan} {j : Nat} (hi : plans[i]? = some plan)
    (hf : (if j = i then none else some (if j < i then i - 1 else i)) = some i') :
    (plans.eraseIdx j)[i']? = some plan := by
  split at hf
  · cases hf
  obtain rfl := Option.some.inj hf
  rw [getElem?_eraseIdx]
  split
  · rw [if_neg (by omega), Nat.sub_add_cancel (by omega)]
    exact hi
  · rw [if_pos (by omega)]
    exact hi

theorem plan_follows (hi : w.plans[i]? = some plan) {op : PoolOp k}
    (hf : follow i op = some i') : (w.step op).1.plans[i']? = some plan := by
  cases op with
  | commitCow _ j | abortCow j =>
    simp only [step]
    cases hj : w.plans[j]? with
    | some other => exact getElem?_eraseIdx_follow hi hf
    | none =>
      rw [← eraseIdx_of_length_le (getElem?_eq_none_iff.1 hj)]
      exact getElem?_eraseIdx_follow hi hf
  | planCow t s e =>
    obtain rfl := Option.some.inj hf
    simp only [step]
    split
    · exact hi
    · rw [getElem?_append_left (lt_of_getElem? hi)]
      exact hi
  | attach | addCacheRef | releaseCacheRef | addInflightRef | releaseInflightRef =>
    obtain rfl := Option.some.inj hf
    simp only [step]
    split <;> exact hi
  | _ =>
    obtain rfl := Option.some.inj hf
    exact hi

theorem plan_follows_all : ∀ (ops : List (PoolOp k)) {w : World k} {i : Nat},
    w.plans[i]? = some plan → followAll i ops = some i' → (w.run ops).plans[i']? = some plan
  | [], _, _, hi, hf => by
    obtain rfl := Option.some.inj hf
    exact hi
  | op :: ops, w, i, hi, hf => by
    obtain ⟨j, hj, hrest⟩ := Option.bind_eq_some_iff.1 hf
    exact plan_follows_all ops (plan_follows hi hj) hrest

/-! ## The sources -/

/-- The table maps each planned page to its source. -/
def MapsSources (t : Fin k) (copies : List CowCopy) (w : World k) : Prop :=
  ∀ c ∈ copies, (w.tables t).physical c.logicalPage = some c.srcPhys

/-- And the sources are allocations of the given generations. -/
def Kept (t : Fin k) (copies : List CowCopy) (generation : Nat → Nat) (w : World k) : Prop :=
  ∀ c ∈ copies, (w.tables t).physical c.logicalPage = some c.srcPhys ∧
    (w.pool.pageMeta c.srcPhys).generation = generation c.srcPhys

/-- Something holds before and after every call. -/
def Throughout (P : World k → Prop) : World k → List (PoolOp k) → Prop
  | w, [] => P w
  | w, op :: ops => P w ∧ Throughout P (w.step op).1 ops

/-- A call maps no planned page to its source that was not mapped to it before. -/
def NoReturn (t : Fin k) (copies : List CowCopy) (w : World k) (op : PoolOp k) : Prop :=
  ∀ c ∈ copies, ((w.step op).1.tables t).physical c.logicalPage = some c.srcPhys →
    (w.tables t).physical c.logicalPage = some c.srcPhys

/-- A call truncates or releases the table, or leaves other pages in it than it had. -/
def Cuts (t : Fin k) (w : World k) (op : PoolOp k) : Prop :=
  op = .releaseTable t ∨ (∃ n, op = .freePagesFromTail t n) ∨ ¬(w.tables t).pages <+: ((w.step op).1.tables t).pages

/-- If it cuts the table, then not all planned pages are mapped to their sources after it. -/
def CutsPlanned (t : Fin k) (copies : List CowCopy) (w : World k) (op : PoolOp k) : Prop :=
  Cuts t w op → ¬MapsSources t copies (w.step op).1

section sources

variable {t : Fin k} {copies : List CowCopy} {generation : Nat → Nat}

/-- What is mapped at the end was mapped all along. -/
theorem MapsSources.back : ∀ (ops : List (PoolOp k)) {w : World k}, RunOf (NoReturn t copies) w ops →
    MapsSources t copies (w.run ops) → MapsSources t copies w
  | [], _, _, hm => hm
  | _ :: ops, _, hrun, hm => fun c hc => hrun.1 c hc (MapsSources.back ops hrun.2 hm c hc)

theorem Counted.source (h : Counted n w) (hm : MapsSources t copies w) {c : CowCopy} (hc : c ∈ copies) :
    0 < (w.pool.pageMeta c.srcPhys).tableRefs ∧ (w.pool.pageMeta c.srcPhys).state ≠ .free := by
  have hpos : 0 < w.mapped c.srcPhys := mapped_pos_of_mem (mem_of_getElem? (hm c hc))
  exact ⟨by rw [h.tally.tables]; omega, (ne_free_of_resident (h.tally.resident (by omega))).1⟩

/-- **A page that stays mapped keeps its generation.** -/
theorem generation_step (h : Counted n w) {op : PoolOp k} (ha : w.ReturnsAlone op)
    (hm : MapsSources t copies w) (hm' : MapsSources t copies (w.step op).1) {c : CowCopy} (hc : c ∈ copies) :
    ((w.step op).1.pool.pageMeta c.srcPhys).generation = (w.pool.pageMeta c.srcPhys).generation :=
  (step_moves h ha c.srcPhys).generation (h.tally.consistent _) (h.source hm hc).2 ((counted_step h ha).source hm' hc).2

theorem kept_of_noReturn : ∀ (ops : List (PoolOp k)) {w : World k}, Counted n w → RunOf ReturnsAlone w ops →
    RunOf (NoReturn t copies) w ops → MapsSources t copies (w.run ops) →
    (∀ c ∈ copies, (w.pool.pageMeta c.srcPhys).generation = generation c.srcPhys) → Throughout (Kept t copies generation) w ops
  | [], _, _, _, _, hm, hg => fun c hc => ⟨hm c hc, hg c hc⟩
  | op :: ops, w, h, ha, hno, hm, hg => by
    have hm' := MapsSources.back ops hno.2 hm
    have hm₀ : MapsSources t copies w := fun c hc => hno.1 c hc (hm' c hc)
    refine ⟨fun c hc => ⟨hm₀ c hc, hg c hc⟩, kept_of_noReturn ops (counted_step h ha.1) ha.2 hno.2 hm fun c hc => ?_⟩
    exact (generation_step h ha.1 hm₀ hm' hc).trans (hg c hc)

theorem Throughout.last {P : World k → Prop} : ∀ (ops : List (PoolOp k)) {w : World k}, Throughout P w ops → P (w.run ops)
  | [], _, h => h
  | _ :: ops, _, h => Throughout.last ops h.2

theorem Throughout.first {P : World k → Prop} : ∀ {ops : List (PoolOp k)}, Throughout P w ops → P w
  | [], h => h
  | _ :: _, h => h.1

theorem noCut_of_kept : ∀ (ops : List (PoolOp k)) {w : World k}, Throughout (Kept t copies generation) w ops →
    RunOf (CutsPlanned t copies) w ops → RunOf (fun w op => ¬Cuts t w op) w ops
  | [], _, _, _ => trivial
  | _ :: ops, _, h, hcut =>
    ⟨fun hc => hcut.1 hc fun c hmem => (h.2.first c hmem).1, noCut_of_kept ops h.2 hcut.2⟩

theorem noReturn_of_kept : ∀ (ops : List (PoolOp k)) {w : World k}, Throughout (Kept t copies generation) w ops →
    RunOf (NoReturn t copies) w ops
  | [], _, _ => trivial
  | _ :: ops, _, h => ⟨fun c hc _ => (h.1 c hc).1, noReturn_of_kept ops h.2⟩

end sources

/-! ## The commit -/

/-- **A commit succeeds if the table maps the sources.** -/
theorem commit_ok_iff (h : Counted n w) (t : Fin k) (hi : w.plans[i]? = some plan) :
    (w.step (.commitCow t i)).2 = .ok () ↔ MapsSources t plan.copies w := by
  have hnd := h.distinct plan (mem_of_getElem? hi)
  simp only [step, hi, PagePool.commitCow]
  constructor
  · intro hok
    split at hok
    · cases hok
    · rename_i hcheck
      exact (planned_of_checked hnd hcheck).maps
  · intro hm
    have hcheck : firstError (w.pool.checkCopy (w.tables t)) plan.copies = .ok () := by
      refine (firstError_ok _ _).2 fun c hc => ?_
      unfold PagePool.checkCopy
      rw [if_pos (hm c hc), if_neg (Nat.ne_of_gt (h.source hm hc).1)]
    rw [hcheck]
    exact (commitLoop_checked h.tally hnd hcheck).2.1

theorem mem_freePages_releaseAll {p : Nat} : ∀ (ps : List Nat) (pool : PagePool), p ∈ ps ∨ p ∈ pool.freePages →
    p ∈ (PagePool.releaseAll ps pool).freePages
  | [], _, h => h.resolve_left nofun
  | q :: ps, pool, h => by
    refine mem_freePages_releaseAll ps (pool.releaseReserved q) ?_
    rcases h with h | h
    · rcases mem_cons.1 h with rfl | h
      · exact .inr mem_cons_self
      · exact .inl h
    · exact .inr (mem_cons_of_mem q h)

/-- **A refused commit** leaves the tables as they are and gives its pages back. -/
theorem commit_refused (h : Counted n w) {t : Fin k} (hi : w.plans[i]? = some plan)
    {e : String} (he : (w.step (.commitCow t i)).2 = .error e) : (w.step (.commitCow t i)).1.tables = w.tables ∧
    ∀ p ∈ plan.reserved, p ∈ (w.step (.commitCow t i)).1.pool.freePages := by
  simp only [step, hi, PagePool.commitCow] at he ⊢
  cases hcheck : firstError (w.pool.checkCopy (w.tables t)) plan.copies with
  | error e' => exact ⟨Function.update_eq_self t w.tables, fun p hp => mem_freePages_releaseAll _ w.pool (.inl hp)⟩
  | ok u =>
    rw [hcheck, (commitLoop_checked h.tally (h.distinct plan (mem_of_getElem? hi)) hcheck).2.1] at he
    cases he

theorem plan_found {t : Fin k} {s e : Nat} (hplan : (w.pool.planCow (w.tables t) s e).2 = .ok plan) :
    (w.step (.planCow t s e)).1.plans[w.plans.length]? = some plan := by
  rcases hr : w.pool.planCow (w.tables t) s e with ⟨pool, r⟩
  rw [hr] at hplan
  subst hplan
  simp only [step, hr, getElem?_concat_length]

/-- **Commits and intervening calls.**  A plan of a table is pending while other calls are made.  Its commit succeeds and no
call mapped a planned page to its source again exactly if all along each planned page was mapped to the same allocation.  If
no call did that and each one that cut the table took a planned page, the commit fails once the table was cut.  A refused
commit leaves every table as it is and gives the reserved pages back. -/
theorem commit_keeps_iff (nPages kb vb k : Nat) (before between : List (PoolOp k)) (w w₁ : World k)
    (hw : w = (World.new nPages kb vb k).run before) (hbefore : RunOf ReturnsAlone (World.new nPages kb vb k) before)
    (t : Fin k) (s e : Nat) (plan : CowPlan) (hplan : (w.pool.planCow (w.tables t) s e).2 = .ok plan)
    (hw₁ : w₁ = (w.step (.planCow t s e)).1) (hbetween : RunOf ReturnsAlone w₁ between) (i : Nat)
    (hi : followAll w.plans.length between = some i) :
    (Throughout (Kept t plan.copies fun p => (w.pool.pageMeta p).generation) w₁ between ↔
      ((w₁.run between).step (.commitCow t i)).2 = .ok () ∧ RunOf (NoReturn t plan.copies) w₁ between) ∧
    (RunOf (NoReturn t plan.copies) w₁ between → RunOf (CutsPlanned t plan.copies) w₁ between →
      ¬RunOf (fun w op => ¬Cuts t w op) w₁ between → ∃ err, ((w₁.run between).step (.commitCow t i)).2 = .error err) ∧
    ∀ err, ((w₁.run between).step (.commitCow t i)).2 = .error err →
      ((w₁.run between).step (.commitCow t i)).1.tables = (w₁.run between).tables ∧
      ∀ p ∈ plan.reserved, p ∈ ((w₁.run between).step (.commitCow t i)).1.pool.freePages := by
  have h : Counted nPages w := hw ▸ counted_run before (counted_new nPages kb vb k) hbefore
  have ha : w.ReturnsAlone (.planCow t s e) := nofun
  have h₁ : Counted nPages w₁ := hw₁ ▸ counted_step h ha
  have h₂ := counted_run between h₁ hbetween
  have hi₂ := plan_follows_all between (hw₁ ▸ plan_found hplan) hi
  have hkept : ((w₁.run between).step (.commitCow t i)).2 = .ok () → RunOf (NoReturn t plan.copies) w₁ between →
      Throughout (Kept t plan.copies fun p => (w.pool.pageMeta p).generation) w₁ between := by
    intro hok hno
    have hm₂ := (commit_ok_iff h₂ t hi₂).1 hok
    have hm₁ := MapsSources.back between hno hm₂
    refine kept_of_noReturn between h₁ hbetween hno hm₂ fun c hc => ?_
    subst hw₁
    -- the plan itself leaves the tables, so its sources were mapped before
    have htables : (w.step (.planCow t s e)).1.tables = w.tables := by
      simp only [World.step]
      split <;> rfl
    exact generation_step h ha (fun c hc => htables ▸ hm₁ c hc) hm₁ hc
  refine ⟨⟨fun hk => ⟨(commit_ok_iff h₂ t hi₂).2 fun c hc => (hk.last between c hc).1, noReturn_of_kept between hk⟩,
    fun h => hkept h.1 h.2⟩, fun hno hcut hsome => ?_, fun err herr => commit_refused h₂ hi₂ herr⟩
  cases hres : ((w₁.run between).step (.commitCow t i)).2 with
  | error err => exact ⟨err, rfl⟩
  | ok => exact absurd (noCut_of_kept between (hkept hres hno) hcut) hsome

/-- A table with one immutable page. -/
def plannedPage : List (PoolOp 2) := [.ensureCapacity tableA 128, .sealPage 0]

/-- And a pending plan to copy it. -/
def pendingCopy : World 2 := (((World.new 6 1 1 2).run plannedPage).step (.planCow tableA 0 1)).1

/-- Calls that leave the planned page where it is. -/
def otherCalls : List (PoolOp 2) := [.addCacheRef 0, .ensureCapacity tableB 200, .ensureCapacity tableA 256]

/-- The commit succeeds after these calls, and fails after a truncation. -/
theorem commit_keeps_iff_other_calls : followAll 0 otherCalls = some 0 ∧
    ((pendingCopy.run otherCalls).step (.commitCow 0 0)).2 = .ok () ∧
    Throughout (Kept 0 [⟨0, 0, 1, 0, 0, 0⟩] fun p => (((World.new 6 1 1 2).run plannedPage).pool.pageMeta p).generation)
      pendingCopy otherCalls ∧
    ∃ err, ((pendingCopy.run [.freePagesFromTail 0 1]).step (.commitCow 0 0)).2 = .error err := by
  have hbefore : RunOf ReturnsAlone (World.new 6 1 1 2) plannedPage := by
    simp only [plannedPage, RunOf, and_true]
    decide +kernel
  have hbetween : RunOf ReturnsAlone pendingCopy otherCalls := by
    simp only [otherCalls, RunOf, and_true]
    decide +kernel
  have hno : RunOf (NoReturn 0 [⟨0, 0, 1, 0, 0, 0⟩]) pendingCopy otherCalls := by
    simp only [otherCalls, RunOf, NoReturn, and_true]
    decide +kernel
  refine ⟨rfl, rfl, (commit_keeps_iff 6 1 1 2 plannedPage otherCalls _ _ rfl hbefore 0 0 1 ⟨[⟨0, 0, 1, 0, 0, 0⟩], true⟩ rfl
    rfl hbetween 0 rfl).1.2 ⟨rfl, hno⟩, ?_⟩
  have hcut : RunOf ReturnsAlone pendingCopy [.freePagesFromTail 0 1] := ⟨fun _ h => absurd h not_mem_nil, trivial⟩
  refine (commit_keeps_iff 6 1 1 2 plannedPage [.freePagesFromTail 0 1] _ _ rfl hbefore 0 0 1 ⟨[⟨0, 0, 1, 0, 0, 0⟩], true⟩ rfl
    rfl hcut 0 rfl).2.1 ⟨fun c _ h => ?_, trivial⟩ ⟨fun _ hm => ?_, trivial⟩ fun h => h.1 (.inr (.inl ⟨1, rfl⟩))
  · cases h
  · cases hm _ mem_cons_self

/-- A pool of four pages and a table of the given length, its first page planned to be copied. -/
def firstPlanned (tokens : Nat) : World 2 :=
  (((World.new 4 1 1 2).run [.ensureCapacity tableA tokens, .sealPage 0]).step (.planCow tableA 0 1)).1

/-- **A commit takes a page for the planned one** that was freed and allocated again, and does not see that the table lost a
page behind the planned one. -/
theorem commit_misses_replacement :
    (((firstPlanned 128).run [.freePagesFromTail 0 1, .allocPages 0 1]).step (.commitCow 0 0)).2 = .ok () ∧
    ((firstPlanned 128).pool.pageMeta 0).generation = 1 ∧
    (((firstPlanned 128).run [.freePagesFromTail 0 1, .allocPages 0 1]).pool.pageMeta 0).generation = 3 ∧
    ((firstPlanned 128).run [.freePagesFromTail 0 1]).tables 0 = ⟨[], 0⟩ ∧
    (firstPlanned 256).tables 0 = ⟨[0, 1], 256⟩ ∧ ((firstPlanned 256).run [.freePagesFromTail 0 1]).tables 0 = ⟨[0], 128⟩ ∧
    (((firstPlanned 256).run [.freePagesFromTail 0 1]).step (.commitCow 0 0)).2 = .ok () := by
  refine ⟨rfl, ?_, ?_, ?_, ?_, ?_, rfl⟩ <;> decide +kernel

end Hipfire.Pages

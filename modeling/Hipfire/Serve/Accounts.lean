import Hipfire.Serve.SessionTable
/-!
# Accounts — sessions, slots and grants agree

In every state of a run a session is parked, with neither slot nor grant, or seated, with both.  Every operation parks some
sessions and seats at most one, so two lemmas carry the invariant: one for giving a session's slot and grant back, one for
taking them.
-/
namespace Hipfire.Serve

open List
open AdmissionController (Below regrant)

/-! ## Lists of grants -/

theorem eraseP_fst_eq_filter (id : Nat) : ∀ (gs : List (Nat × Nat)), (gs.map Prod.fst).Nodup →
    gs.eraseP (fun g => g.1 == id) = gs.filter (fun g => g.1 != id)
  | [], _ => rfl
  | g :: gs, h => by
    rw [map_cons, nodup_cons] at h
    by_cases hg : g.1 = id
    · have hall : ∀ x ∈ gs, (x.1 != id) = true := fun x hx => by
        refine bne_iff_ne.2 (fun he => h.1 ?_)
        rw [hg, ← he]
        exact mem_map_of_mem hx
      rw [eraseP_cons_of_pos (by simpa using hg), filter_cons_of_neg (by simpa using hg),
        filter_eq_self.2 hall]
    · rw [eraseP_cons_of_neg (by simpa using hg), filter_cons_of_pos (by simpa using hg),
        eraseP_fst_eq_filter id gs h.2]

theorem map_fst_regrant (id ctx : Nat) : ∀ (gs : List (Nat × Nat)), (regrant id ctx gs).map Prod.fst = gs.map Prod.fst
  | [] => rfl
  | g :: gs => by
    unfold regrant
    split
    · rfl
    · rw [map_cons, map_fst_regrant id ctx gs]; rfl

variable {id ctx : Nat}

theorem mem_regrant {gs : List (Nat × Nat)} (hd : (gs.map Prod.fst).Nodup) (x c : Nat) :
    (x, c) ∈ regrant id ctx gs ↔ if x = id then c = ctx ∧ ∃ old, (id, old) ∈ gs else (x, c) ∈ gs := by
  induction gs with
  | nil => simp [regrant]
  | cons g gs ih =>
    rw [map_cons, nodup_cons] at hd
    have ih := ih hd.2
    obtain ⟨y, d⟩ := g
    unfold regrant
    by_cases hy : y = id
    · subst hy
      have hx : ∀ c', (y, c') ∉ gs := fun c' hm => hd.1 (mem_map.2 ⟨(y, c'), hm, rfl⟩)
      by_cases hxy : x = y
      · subst hxy
        simp [hx]
      · simp [hxy]
    · rw [if_neg hy, mem_cons, ih]
      by_cases hx : x = id
      · subst hx
        simp [Ne.symm hy]
      · simp [hx]

/-! ## The invariant -/

/-- Neither slot nor grant. -/
structure Parked (s : Session) : Prop where
  slot : s.slot = none
  residency : s.residency ≠ .resident
  admitted : s.admitted = false

/-- In slot `k`, with a grant. -/
structure Seated (s : Session) (k : Nat) : Prop where
  slot : s.slot = some k
  residency : s.residency = .resident
  admitted : s.admitted = true

structure Accounts (σ : Serving) : Prop where
  kind : ∀ id s, σ.session? id = some s → Parked s ∨ ∃ k, Seated s k ∧ σ.pool.inUse[k]? = some true
  apart : ∀ id id' s s' k, σ.session? id = some s → σ.session? id' = some s' → s.slot = some k → s'.slot = some k → id = id'
  used : ∀ k, σ.pool.inUse[k]? = some true → ∃ id s, σ.session? id = some s ∧ s.slot = some k
  grants : ∀ id ctx, (id, ctx) ∈ σ.adm.admitted ↔ ∃ s, σ.session? id = some s ∧ s.admitted = true ∧ s.grantedCtx = ctx
  once : (σ.adm.admitted.map Prod.fst).Nodup
  below : σ.adm.Below
  known : ∀ id s, σ.session? id = some s → id < σ.table.nextId

theorem accounts_start (pool : SlotPool) (footprint : ModelFootprint) (budgetBytes : Nat)
    (hpool : ∀ b ∈ pool.inUse, b = false) : Accounts (.start pool footprint budgetBytes) where
  kind := fun id s h => by cases h
  apart := fun id _ _ _ _ h => by cases h
  used := fun k h => by cases hpool true (mem_of_getElem? h)
  grants := fun id ctx => by
    constructor
    · intro h; cases h
    · rintro ⟨s, h, -⟩; cases h
  once := nodup_nil
  below := AdmissionController.below_new footprint budgetBytes
  known := fun id s h => by cases h

variable {σ τ : Serving}

namespace Accounts

theorem not_granted (h : Accounts σ) (hid : ∀ s, σ.session? id = some s → Parked s) (ctx : Nat) :
    (id, ctx) ∉ σ.adm.admitted := by
  intro hm
  obtain ⟨s, hs, ha, -⟩ := (h.grants id ctx).1 hm
  rw [(hid s hs).admitted] at ha
  cases ha

/-- The use bits after a session's slot was given back. -/
def freed (inUse : List Bool) : Option Nat → List Bool
  | none => inUse
  | some k => inUse.set k false

/-- **Giving back**: the session loses its slot and its grant, and is parked or gone. -/
theorem vacate (h : Accounts σ) {s : Session} (hs : σ.session? id = some s)
    (hpool : τ.pool.inUse = freed σ.pool.inUse s.slot) (hadm : τ.adm = if s.admitted then σ.adm.release id else σ.adm)
    (hother : ∀ a, a ≠ id → τ.session? a = σ.session? a) (hself : ∀ s', τ.session? id = some s' → Parked s')
    (hnext : τ.table.nextId = σ.table.nextId) : Accounts τ := by
  have hfree : ∀ k, τ.pool.inUse[k]? = some true ↔ σ.pool.inUse[k]? = some true ∧ s.slot ≠ some k := by
    intro k
    rw [hpool]
    cases hslot : s.slot with
    | none => simp [freed]
    | some j =>
      simp only [freed, getElem?_set]
      by_cases hjk : j = k
      · subst hjk
        by_cases hlt : j < σ.pool.inUse.length <;> simp [hlt]
      · simp [hjk]
  have hgrants : ∀ x c, (x, c) ∈ τ.adm.admitted ↔ x ≠ id ∧ (x, c) ∈ σ.adm.admitted := by
    intro x c
    rw [hadm]
    cases ha : s.admitted with
    | true =>
      show (x, c) ∈ σ.adm.admitted.eraseP (fun g => g.1 == id) ↔ _
      rw [eraseP_fst_eq_filter id _ h.once, mem_filter]
      simp [and_comm]
    | false =>
      have hnot : ∀ c, (id, c) ∉ σ.adm.admitted := fun c hm => by
        obtain ⟨s', hs', ha', -⟩ := (h.grants id c).1 hm
        cases hs.symm.trans hs'
        cases ha.symm.trans ha'
      exact ⟨fun hm => ⟨fun he => hnot c (he ▸ hm), hm⟩, And.right⟩
  refine ⟨?_, ?_, ?_, ?_, ?_, ?_, ?_⟩
  · intro a s' ha
    by_cases hid : a = id
    · subst hid
      exact .inl (hself s' ha)
    · rw [hother a hid] at ha
      rcases h.kind a s' ha with hp | ⟨k, hk, hu⟩
      · exact .inl hp
      · refine .inr ⟨k, hk, (hfree k).2 ⟨hu, fun he => hid (h.apart a id s' s k ha hs hk.slot he)⟩⟩
  · intro a a' t t' k ha ha' ht ht'
    have hne : ∀ b t, τ.session? b = some t → t.slot = some k → b ≠ id := by
      rintro b t hb ht rfl
      rw [(hself t hb).slot] at ht
      cases ht
    rw [hother a (hne a t ha ht)] at ha
    rw [hother a' (hne a' t' ha' ht')] at ha'
    exact h.apart a a' t t' k ha ha' ht ht'
  · intro k hk
    obtain ⟨hu, hne⟩ := (hfree k).1 hk
    obtain ⟨a, t, ha, ht⟩ := h.used k hu
    have hid : a ≠ id := by
      rintro rfl
      cases hs.symm.trans ha
      exact hne ht
    exact ⟨a, t, by rw [hother a hid]; exact ha, ht⟩
  · intro x c
    rw [hgrants x c]
    by_cases hx : x = id
    · subst hx
      refine ⟨fun hh => absurd rfl hh.1, ?_⟩
      rintro ⟨s', hs', ha', -⟩
      rw [(hself s' hs').admitted] at ha'
      cases ha'
    · rw [hother x hx, ← h.grants x c]
      exact ⟨And.right, fun hm => ⟨hx, hm⟩⟩
  · rw [hadm]
    split
    · exact h.once.sublist (eraseP_sublist.map _)
    · exact h.once
  · rw [hadm]
    split
    · exact h.below.release id
    · exact h.below
  · intro a s' ha
    rw [hnext]
    by_cases hid : a = id
    · subst hid
      exact h.known a s hs
    · rw [hother a hid] at ha
      exact h.known a s' ha

/-- **Taking**: a session that was parked or new has a free slot and a grant of its own. -/
theorem seated (h : Accounts σ) {k : Nat} {s : Session} (hid : ∀ s, σ.session? id = some s → Parked s)
    (hfree : σ.pool.inUse[k]? = some false) (hpool : τ.pool.inUse = σ.pool.inUse.set k true)
    (hadm : τ.adm.admitted = σ.adm.admitted ++ [(id, ctx)]) (hbelow : τ.adm.Below)
    (hself : τ.session? id = some s) (hs : Seated s k) (hctx : s.grantedCtx = ctx)
    (hother : ∀ a, a ≠ id → τ.session? a = σ.session? a) (hknown : id < τ.table.nextId)
    (hnext : σ.table.nextId ≤ τ.table.nextId) : Accounts τ := by
  have hlt : k < σ.pool.inUse.length := (List.getElem?_eq_some_iff.1 hfree).1
  have hset : ∀ j, τ.pool.inUse[j]? = some true ↔ j = k ∨ σ.pool.inUse[j]? = some true := by
    intro j
    rw [hpool, getElem?_set]
    by_cases hj : k = j
    · subst hj; simp [hlt]
    · simp [hj, Ne.symm hj]
  have hnot := h.not_granted hid
  -- nobody else is in the slot: it was free
  have halone : ∀ a t, σ.session? a = some t → t.slot ≠ some k := by
    intro a t ha ht
    rcases h.kind a t ha with hp | ⟨j, hj, hu⟩
    · rw [hp.slot] at ht; cases ht
    · cases hj.slot.symm.trans ht
      cases hfree.symm.trans hu
  refine ⟨?_, ?_, ?_, ?_, ?_, hbelow, ?_⟩
  · intro a t ha
    by_cases haid : a = id
    · subst haid
      cases hself.symm.trans ha
      exact .inr ⟨k, hs, (hset k).2 (.inl rfl)⟩
    · rw [hother a haid] at ha
      rcases h.kind a t ha with hp | ⟨j, hj, hu⟩
      · exact .inl hp
      · exact .inr ⟨j, hj, (hset j).2 (.inr hu)⟩
  · intro a a' t t' j ha ha' ht ht'
    by_cases haid : a = id
    · by_cases haid' : a' = id
      · rw [haid, haid']
      · cases hself.symm.trans (haid ▸ ha)
        cases hs.slot.symm.trans ht
        rw [hother a' haid'] at ha'
        exact absurd ht' (halone a' t' ha')
    · rw [hother a haid] at ha
      by_cases haid' : a' = id
      · cases hself.symm.trans (haid' ▸ ha')
        cases hs.slot.symm.trans ht'
        exact absurd ht (halone a t ha)
      · rw [hother a' haid'] at ha'
        exact h.apart a a' t t' j ha ha' ht ht'
  · intro j hj
    rcases (hset j).1 hj with rfl | hu
    · exact ⟨id, s, hself, hs.slot⟩
    obtain ⟨a, t, ha, ht⟩ := h.used j hu
    have haid : a ≠ id := by
      rintro rfl
      rw [(hid t ha).slot] at ht
      cases ht
    exact ⟨a, t, by rw [hother a haid]; exact ha, ht⟩
  · intro x c
    rw [hadm, mem_append, mem_singleton]
    by_cases hx : x = id
    · subst hx
      simp only [hnot c, false_or, hself, Option.some.injEq]
      constructor
      · rintro he
        exact ⟨s, rfl, hs.admitted, by rw [hctx]; exact (Prod.mk.inj he).2.symm⟩
      · rintro ⟨s', rfl, -, rfl⟩
        rw [hctx]
    · rw [hother x hx, ← h.grants x c]
      simp [hx]
  · rw [hadm, map_append, nodup_append]
    refine ⟨h.once, by simp, ?_⟩
    rintro x hx y hy rfl
    obtain ⟨⟨x', c⟩, hm, rfl⟩ := mem_map.1 hx
    rw [map_singleton, mem_singleton] at hy
    subst hy
    exact hnot c hm
  · intro a t ha
    by_cases haid : a = id
    · rw [haid]; exact hknown
    · rw [hother a haid] at ha
      exact Nat.lt_of_lt_of_le (h.known a t ha) hnext

end Accounts
end Hipfire.Serve

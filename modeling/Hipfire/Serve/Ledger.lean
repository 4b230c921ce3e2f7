import Hipfire.Serve.Accounts
/-! # Ledger — every operation of the session table keeps the accounts, so every run does -/
namespace Hipfire.Serve

open List Serving

namespace Serving

variable (σ : Serving)

theorem session?_setSession (id a : Nat) (s : Session) :
    (σ.setSession id s).session? a = if a = id then some s else σ.session? a :=
  Maps.lookup_insert ..

variable {σ} {id a : Nat} {s : Session} in
theorem session?_set : (σ.setSession id s).session? id = some s := (σ.session?_setSession ..).trans (if_pos rfl)

variable {σ} {id a : Nat} {s : Session} in
theorem session?_set_ne (ha : a ≠ id) : (σ.setSession id s).session? a = σ.session? a :=
  (σ.session?_setSession ..).trans (if_neg ha)

variable (slot : Option Nat)

theorem releaseSlot_table : (σ.releaseSlot slot).table = σ.table := by cases slot <;> rfl

theorem releaseSlot_adm : (σ.releaseSlot slot).adm = σ.adm := by cases slot <;> rfl

theorem releaseSlot_inUse : (σ.releaseSlot slot).pool.inUse = Accounts.freed σ.pool.inUse slot := by
  cases slot with
  | none => rfl
  | some k => exact σ.pool.inUse_release k

theorem releaseGrant_table (id : Nat) (b : Bool) : (σ.releaseGrant id b).table = σ.table := by cases b <;> rfl

theorem releaseGrant_pool (id : Nat) (b : Bool) : (σ.releaseGrant id b).pool = σ.pool := by cases b <;> rfl

theorem releaseGrant_adm (id : Nat) (b : Bool) :
    (σ.releaseGrant id b).adm = if b then σ.adm.release id else σ.adm := by cases b <;> rfl

end Serving

variable {σ : Serving}

namespace Accounts

/-! ## Giving back -/

variable {s : Session}

/-- What `mark_swapped` and `mark_cold` have in common. -/
theorem park (h : Accounts σ) {id : Nat} {s' : Session} (hs : σ.session? id = some s) (hs' : Parked s') :
    Accounts (((σ.releaseSlot s.slot).releaseGrant id s.admitted).setSession id s') := by
  refine h.vacate hs ?_ ?_ (fun a ha => ?_) (fun t ht => ?_) ?_
  · show ((σ.releaseSlot s.slot).releaseGrant id s.admitted).pool.inUse = _
    rw [releaseGrant_pool, releaseSlot_inUse]
  · show ((σ.releaseSlot s.slot).releaseGrant id s.admitted).adm = _
    rw [releaseGrant_adm, releaseSlot_adm]
  · rw [session?_set_ne ha]
    unfold Serving.session?
    rw [releaseGrant_table, releaseSlot_table]
  · cases session?_set.symm.trans ht
    exact hs'
  · show ((σ.releaseSlot s.slot).releaseGrant id s.admitted).table.nextId = _
    rw [releaseGrant_table, releaseSlot_table]

theorem markSwapped (h : Accounts σ) (id : Nat) : Accounts (σ.markSwapped id) := by
  unfold Serving.markSwapped
  cases hs : σ.session? id with
  | none => exact h
  | some s => exact h.park hs ⟨rfl, Residency.noConfusion, rfl⟩

theorem markCold (h : Accounts σ) (id : Nat) : Accounts (σ.markCold id) := by
  unfold Serving.markCold
  cases hs : σ.session? id with
  | none => exact h
  | some s => exact h.park hs ⟨rfl, Residency.noConfusion, rfl⟩

theorem close (h : Accounts σ) (id : Nat) : Accounts (σ.close id) := by
  unfold Serving.close
  cases hs : σ.session? id with
  | none => exact h
  | some s =>
    have hlookup : ∀ a, Serving.session? (((⟨{ σ.table with sessions := σ.table.sessions.erase id }, σ.pool, σ.adm⟩ :
        Serving).releaseSlot s.slot).releaseGrant id s.admitted) a = if a = id then none else σ.session? a := by
      intro a
      unfold Serving.session?
      rw [releaseGrant_table, releaseSlot_table]
      exact Maps.lookup_erase ..
    refine h.vacate hs ?_ ?_ (fun a ha => ?_) (fun t ht => ?_) ?_
    · rw [releaseGrant_pool, releaseSlot_inUse]
    · rw [releaseGrant_adm, releaseSlot_adm]
    · rw [hlookup, if_neg ha]
    · rw [hlookup, if_pos rfl] at ht
      cases ht
    · rw [releaseGrant_table, releaseSlot_table]

theorem foldl_close : ∀ (ids : List Nat) {σ : Serving}, Accounts σ → Accounts (ids.foldl Serving.close σ)
  | [], _, h => h
  | id :: ids, _, h => foldl_close ids (h.close id)

theorem capLoop (maxSessions : Nat) (rank : Nat → Nat → Nat) : ∀ (fuel : Nat) {σ : Serving} (closed : List Nat),
    Accounts σ → Accounts (Serving.capLoop maxSessions rank fuel σ closed).1
  | 0, _, _, h => h
  | fuel + 1, σ, closed, h => by
    unfold Serving.capLoop
    split
    · exact h
    · split
      · exact h
      · exact capLoop maxSessions rank fuel _ (h.close _)

theorem sweepExpired (h : Accounts σ) (now maxIdle maxSessions : Nat) (rank : Nat → Nat → Nat) :
    Accounts (σ.sweepExpired now maxIdle maxSessions rank).1 :=
  capLoop maxSessions rank _ _ (foldl_close _ h)

/-! ## Taking -/

theorem release_append {adm : AdmissionController} {id ctx : Nat} (hid : ∀ c, (id, c) ∉ adm.admitted) :
    ({ adm with admitted := adm.admitted ++ [(id, ctx)] } : AdmissionController).release id = adm := by
  have hnone : ∀ g ∈ adm.admitted, ¬ (g.1 == id) = true := fun g hg he => by
    rw [beq_iff_eq] at he
    exact hid g.2 (he ▸ hg)
  unfold AdmissionController.release
  rw [eraseP_append_right _ hnone, eraseP_cons_of_pos (by simp), append_nil]

/-- **Seating**: nothing changes, or the pool has given a free slot and the controller a grant. -/
theorem seat_cases (h : Accounts σ) {id : Nat} (hid : ∀ s, σ.session? id = some s → Parked s) (ctx : Nat) :
    (∃ e, σ.seat id ctx = (σ, .error e)) ∨
      ∃ k, σ.seat id ctx = (⟨σ.table, σ.pool.acquire.1, { σ.adm with admitted := σ.adm.admitted ++ [(id, ctx)] }⟩, .ok (ctx, k)) ∧
        σ.pool.inUse[k]? = some false ∧ σ.pool.acquire.1.inUse = σ.pool.inUse.set k true ∧
        ({ σ.adm with admitted := σ.adm.admitted ++ [(id, ctx)] } : AdmissionController).Below := by
  unfold Serving.seat
  rcases AdmissionController.admit_cases σ.adm id ctx with ⟨e, he⟩ | ⟨ha, hb⟩
  · rw [he]
    exact .inl ⟨e, rfl⟩
  rw [ha]
  rcases σ.pool.acquire_cases with ⟨hp, -⟩ | ⟨k, hk, hfree, huse⟩
  · rw [hp]
    refine .inl ⟨.poolFull, ?_⟩
    dsimp only
    rw [release_append (h.not_granted hid)]
  · refine .inr ⟨k, ?_, hfree, huse, hb⟩
    rw [show σ.pool.acquire = (σ.pool.acquire.1, some k) from Prod.ext rfl hk]

theorem no_session (h : Accounts σ) : ∀ s, σ.session? σ.table.nextId = some s → Parked s :=
  fun s hs => absurd (h.known _ s hs) (Nat.lt_irrefl _)

/-- **An open fails without a change, or seats a new session** under the next id. -/
theorem openSession_cases (h : Accounts σ) (ctx now : Nat) : (∃ e, σ.openSession ctx now = (σ, .error e)) ∨
      (σ.openSession ctx now).2 = .ok σ.table.nextId ∧ (σ.openSession ctx now).1.table.nextId = σ.table.nextId + 1 ∧
        Accounts (σ.openSession ctx now).1 := by
  unfold Serving.openSession
  dsimp only
  rcases h.seat_cases h.no_session ctx with ⟨e, he⟩ | ⟨k, hk, hfree, huse, hb⟩
  · rw [he]
    exact .inl ⟨e, rfl⟩
  · rw [hk]
    refine .inr ⟨rfl, rfl, ?_⟩
    refine h.seated h.no_session hfree huse rfl hb session?_set ⟨rfl, rfl, rfl⟩ rfl
      (fun _ => session?_set_ne) (Nat.lt_succ_self _) (Nat.le_succ _)

/-- **A reopening fails without a change, or seats the session again.** -/
theorem reopenCold_cases (h : Accounts σ) (id ctx : Nat) : (∃ e, σ.reopenCold id ctx = (σ, .error e)) ∨
      Accounts (σ.reopenCold id ctx).1 ∧ (σ.reopenCold id ctx).2 = .ok id ∧
        (σ.reopenCold id ctx).1.table.nextId = σ.table.nextId := by
  unfold Serving.reopenCold
  cases hs : σ.session? id with
  | none => exact .inl ⟨_, rfl⟩
  | some s =>
    dsimp only
    by_cases hbusy : s.residency ≠ .cold ∨ s.slot.isSome ∨ s.admitted
    · rw [if_pos hbusy]
      exact .inl ⟨_, rfl⟩
    rw [if_neg hbusy]
    have hid : ∀ t, σ.session? id = some t → Parked t := by
      intro t ht
      cases hs.symm.trans ht
      push Not at hbusy
      exact ⟨by simpa using hbusy.2.1, by rw [hbusy.1]; exact Residency.noConfusion, by simpa using hbusy.2.2⟩
    rcases h.seat_cases hid ctx with ⟨e, he⟩ | ⟨k, hk, hfree, huse, hb⟩
    · rw [he]
      exact .inl ⟨e, rfl⟩
    · rw [hk]
      refine .inr ⟨?_, rfl, rfl⟩
      exact h.seated hid hfree huse rfl hb session?_set ⟨rfl, rfl, rfl⟩ rfl
        (fun _ => session?_set_ne) (h.known id s hs) le_rfl

/-- A parked session with its grant taken again, and a pool. -/
def readmitted (σ : Serving) (id : Nat) (s : Session) (pool : SlotPool) : Serving :=
  Serving.setSession ⟨σ.table, pool, { σ.adm with admitted := σ.adm.admitted ++ [(id, s.grantedCtx)] }⟩ id
    { s with admitted := true }

theorem readmit_cases {id : Nat} (hs : σ.session? id = some s) (hp : Parked s) : (∃ e, σ.readmit id = (σ, .error e)) ∨
      σ.readmit id = (readmitted σ id s σ.pool, .ok ()) ∧
        ({ σ.adm with admitted := σ.adm.admitted ++ [(id, s.grantedCtx)] } : AdmissionController).Below := by
  unfold Serving.readmit
  rw [hs]
  dsimp only
  rw [if_neg (by rw [hp.admitted]; exact Bool.false_ne_true)]
  rcases AdmissionController.admit_cases σ.adm id s.grantedCtx with ⟨e, he⟩ | ⟨ha, hb⟩
  · rw [he]
    exact .inl ⟨e, rfl⟩
  · rw [ha]
    exact .inr ⟨rfl, hb⟩

/-- Without a slot, the grant that a restore took goes back and the session is cold. -/
theorem markCold_readmitted (h : Accounts σ) {id : Nat} (hs : σ.session? id = some s) (hp : Parked s) :
    Accounts ((readmitted σ id s σ.pool).markCold id) := by
  have hself : (readmitted σ id s σ.pool).session? id = some { s with admitted := true } :=
    session?_set
  have hparked : ∀ t, σ.session? id = some t → Parked t := fun t ht => by
    cases hs.symm.trans ht
    exact hp
  have hnot := h.not_granted hparked
  unfold Serving.markCold
  rw [hself, hp.slot]
  refine h.vacate hs (by rw [hp.slot]; rfl) ?_ (fun a ha => ?_) (fun t ht => ?_) rfl
  · rw [hp.admitted]
    exact release_append hnot
  · exact (session?_set_ne ha).trans (session?_set_ne ha)
  · cases session?_set.symm.trans ht
    exact ⟨rfl, Residency.noConfusion, rfl⟩

/-- With a slot, the session is seated again. -/
theorem markResident_readmitted (h : Accounts σ) {id k : Nat} (hs : σ.session? id = some s) (hp : Parked s)
    {pool : SlotPool} (hfree : σ.pool.inUse[k]? = some false) (huse : pool.inUse = σ.pool.inUse.set k true)
    (hb : ({ σ.adm with admitted := σ.adm.admitted ++ [(id, s.grantedCtx)] } : AdmissionController).Below)
    (seqLen now : Nat) : Accounts ((readmitted σ id s pool).markResident id k seqLen now) := by
  have hself : (readmitted σ id s pool).tick.session? id = some { s with admitted := true } :=
    session?_set
  unfold Serving.markResident
  dsimp only
  rw [hself]
  refine h.seated (fun t ht => by cases hs.symm.trans ht; exact hp) hfree huse rfl hb
    session?_set ⟨rfl, rfl, rfl⟩ rfl (fun a ha => ?_) (h.known id s hs) le_rfl
  exact (session?_set_ne ha).trans (session?_set_ne ha)

theorem restore (h : Accounts σ) (id seqLen now : Nat) : Accounts (σ.restore id seqLen now) := by
  unfold Serving.restore
  cases hs : σ.session? id with
  | none => exact h
  | some s =>
    dsimp only
    by_cases hres : s.residency ≠ .swapped
    · rw [if_pos hres]; exact h
    rw [if_neg hres]
    have hp : Parked s := by
      rcases h.kind id s hs with hp | ⟨k, hk, -⟩
      · exact hp
      · exact absurd (by rw [hk.residency]; exact Residency.noConfusion) hres
    rcases readmit_cases hs hp with ⟨e, he⟩ | ⟨ha, hb⟩
    · rw [he]
      exact h.markCold id
    rw [ha]
    dsimp only
    rw [show (readmitted σ id s σ.pool).pool = σ.pool from rfl]
    rcases σ.pool.acquire_cases with ⟨hpool, -⟩ | ⟨k, hk, hfree, huse⟩
    · rw [hpool]
      exact h.markCold_readmitted hs hp
    · rw [show σ.pool.acquire = (σ.pool.acquire.1, some k) from Prod.ext rfl hk]
      exact h.markResident_readmitted hs hp hfree huse hb seqLen now

/-! ## Resizing -/

theorem resizeGrant (h : Accounts σ) (id ctx : Nat) : Accounts (σ.resizeGrant id ctx).1 := by
  unfold Serving.resizeGrant
  rcases AdmissionController.resize_cases h.below id ctx with ⟨e, he⟩ | ⟨⟨old, hold⟩, ha, hb⟩
  · rw [he]; exact h
  rw [ha]
  have hlookup : ∀ a, (Maps.modify id (fun s => { s with grantedCtx := ctx }) σ.table.sessions).lookup a =
      if a = id then (σ.session? id).map (fun s => { s with grantedCtx := ctx }) else σ.session? a :=
    fun a => Maps.lookup_modify ..
  -- a session of the new table is one of the old, but for the size of its grant
  have hback : ∀ a t, (Maps.modify id (fun s => { s with grantedCtx := ctx }) σ.table.sessions).lookup a = some t →
      ∃ s c, σ.session? a = some s ∧ t = { s with grantedCtx := c } := by
    intro a t ht
    rw [hlookup] at ht
    split at ht
    · rename_i ha
      obtain ⟨s, hs, rfl⟩ := Option.map_eq_some_iff.1 ht
      exact ⟨s, ctx, ha ▸ hs, rfl⟩
    · exact ⟨t, t.grantedCtx, ht, rfl⟩
  refine ⟨?_, ?_, ?_, ?_, ?_, hb, ?_⟩
  · intro a t ht
    obtain ⟨s, c, hs, rfl⟩ := hback a t ht
    exact (h.kind a s hs).imp (fun hp => ⟨hp.slot, hp.residency, hp.admitted⟩)
      fun ⟨k, hk, hu⟩ => ⟨k, ⟨hk.slot, hk.residency, hk.admitted⟩, hu⟩
  · intro a a' t t' k ht ht'
    obtain ⟨s, c, hs, rfl⟩ := hback a t ht
    obtain ⟨s', c', hs', rfl⟩ := hback a' t' ht'
    exact h.apart a a' s s' k hs hs'
  · intro k hk
    obtain ⟨a, s, hs, hsk⟩ := h.used k hk
    by_cases ha : a = id
    · subst ha
      exact ⟨a, { s with grantedCtx := ctx }, (hlookup a).trans (by rw [if_pos rfl, hs]; rfl), hsk⟩
    · exact ⟨a, s, (hlookup a).trans (by rw [if_neg ha, hs]), hsk⟩
  · intro x c
    show (x, c) ∈ AdmissionController.regrant id ctx σ.adm.admitted ↔ ∃ s,
      (Maps.modify id _ σ.table.sessions).lookup x = some s ∧ s.admitted = true ∧ s.grantedCtx = c
    rw [mem_regrant h.once, hlookup]
    by_cases hx : x = id
    · subst hx
      rw [if_pos rfl, if_pos rfl]
      obtain ⟨s, hs, hadm, -⟩ := (h.grants x old).1 hold
      rw [hs]
      constructor
      · rintro ⟨rfl, -⟩
        exact ⟨_, rfl, hadm, rfl⟩
      · rintro ⟨t, ht, -, rfl⟩
        rw [Option.map_some, Option.some.injEq] at ht
        exact ⟨by rw [← ht], old, hold⟩
    · rw [if_neg hx, if_neg hx]
      exact h.grants x c
  · show ((AdmissionController.regrant id ctx σ.adm.admitted).map Prod.fst).Nodup
    rw [map_fst_regrant]
    exact h.once
  · intro a t ht
    obtain ⟨s, -, hs, -⟩ := hback a t ht
    exact h.known a s hs

/-! ## Runs -/

/-- **Every operation keeps the accounts.** -/
theorem step (h : Accounts σ) : ∀ op, Accounts (σ.step op)
  | .openSession ctx now => by
    rcases h.openSession_cases ctx now with ⟨e, he⟩ | ⟨-, -, ha⟩
    · show Accounts (σ.openSession ctx now).1
      rw [he]; exact h
    · exact ha
  | .close id => h.close id
  | .resizeGrant id ctx => h.resizeGrant id ctx
  | .markSwapped id => h.markSwapped id
  | .markCold id => h.markCold id
  | .reopenCold id ctx => by
    rcases h.reopenCold_cases id ctx with ⟨e, he⟩ | ⟨ha, -⟩
    · show Accounts (σ.reopenCold id ctx).1
      rw [he]; exact h
    · exact ha
  | .sweepExpired now maxIdle maxSessions rank => h.sweepExpired now maxIdle maxSessions rank
  | .restore id seqLen now => h.restore id seqLen now

theorem run : ∀ (ops : List SessionOp) {σ : Serving}, Accounts σ → Accounts (σ.run ops)
  | [], _, h => h
  | op :: ops, _, h => run ops (h.step op)

end Accounts

/-! ## Ids -/

namespace Serving

variable (σ : Serving)

theorem nextId_close (id : Nat) : (σ.close id).table.nextId = σ.table.nextId := by
  unfold close
  split
  · rfl
  · rw [releaseGrant_table, releaseSlot_table]

theorem nextId_foldl_close : ∀ (ids : List Nat) (σ : Serving), (ids.foldl close σ).table.nextId = σ.table.nextId
  | [], _ => rfl
  | id :: ids, σ => (nextId_foldl_close ids (σ.close id)).trans (nextId_close σ id)

theorem nextId_capLoop (maxSessions : Nat) (rank : Nat → Nat → Nat) : ∀ (fuel : Nat) (σ : Serving) (closed : List Nat),
    (capLoop maxSessions rank fuel σ closed).1.table.nextId = σ.table.nextId
  | 0, _, _ => rfl
  | fuel + 1, σ, closed => by
    unfold capLoop
    split
    · rfl
    · split
      · rfl
      · rw [nextId_capLoop maxSessions rank fuel, nextId_close]

theorem nextId_markSwapped (id : Nat) : (σ.markSwapped id).table.nextId = σ.table.nextId := by
  unfold markSwapped
  split
  · rfl
  · show ((σ.releaseSlot _).releaseGrant id _).table.nextId = _
    rw [releaseGrant_table, releaseSlot_table]

theorem nextId_markCold (id : Nat) : (σ.markCold id).table.nextId = σ.table.nextId := by
  unfold markCold
  split
  · rfl
  · show ((σ.releaseSlot _).releaseGrant id _).table.nextId = _
    rw [releaseGrant_table, releaseSlot_table]

theorem nextId_markResident (id slot seqLen now : Nat) :
    (σ.markResident id slot seqLen now).table.nextId = σ.table.nextId := by
  unfold markResident
  dsimp only
  split <;> rfl

theorem nextId_readmit (id : Nat) : (σ.readmit id).1.table.nextId = σ.table.nextId := by
  unfold readmit
  split
  · rfl
  · split
    · rfl
    · split <;> rfl

theorem nextId_restore (id seqLen now : Nat) : (σ.restore id seqLen now).table.nextId = σ.table.nextId := by
  unfold restore
  have hr := nextId_readmit σ id
  split
  · rfl
  split
  · rfl
  split
  · rename_i he
    rw [nextId_markCold]
    rwa [he] at hr
  · rename_i he
    rw [he] at hr
    split
    · rw [nextId_markCold]; exact hr
    · rw [nextId_markResident]; exact hr

theorem nextId_resizeGrant (id ctx : Nat) : (σ.resizeGrant id ctx).1.table.nextId = σ.table.nextId := by
  unfold resizeGrant
  split <;> rfl

end Serving

theorem Accounts.nextId_step (h : Accounts σ) : ∀ op, σ.table.nextId ≤ (σ.step op).table.nextId
  | .openSession ctx now => by
    show _ ≤ (σ.openSession ctx now).1.table.nextId
    rcases h.openSession_cases ctx now with ⟨e, he⟩ | ⟨-, hn, -⟩
    · rw [he]
    · rw [hn]; exact Nat.le_succ _
  | .close id => Nat.le_of_eq (σ.nextId_close id).symm
  | .resizeGrant id ctx => Nat.le_of_eq (σ.nextId_resizeGrant id ctx).symm
  | .markSwapped id => Nat.le_of_eq (σ.nextId_markSwapped id).symm
  | .markCold id => Nat.le_of_eq (σ.nextId_markCold id).symm
  | .reopenCold id ctx => by
    show _ ≤ (σ.reopenCold id ctx).1.table.nextId
    rcases h.reopenCold_cases id ctx with ⟨e, he⟩ | ⟨-, -, hn⟩
    · rw [he]
    · rw [hn]
  | .sweepExpired now maxIdle maxSessions rank => by
    show _ ≤ (Serving.capLoop ..).1.table.nextId
    rw [nextId_capLoop, nextId_foldl_close]
  | .restore id seqLen now => Nat.le_of_eq (σ.nextId_restore id seqLen now).symm

theorem Accounts.nextId_run : ∀ (ops : List SessionOp) {σ : Serving}, Accounts σ →
    σ.table.nextId ≤ (σ.run ops).table.nextId
  | [], _, _ => le_rfl
  | op :: ops, _, h => Nat.le_trans (h.nextId_step op) (nextId_run ops (h.step op))

/-! ## The accounts, as the serving engine relies on them -/

/-- **Sessions, slots and budget agree.** -/
structure Agreement (σ : Serving) : Prop where
  /-- No two sessions hold the same slot. -/
  apart : ∀ id id' s s' k, σ.session? id = some s → σ.session? id' = some s' → s.slot = some k → s'.slot = some k → id = id'
  /-- A slot is in use when exactly one session holds it. -/
  inUse : ∀ k, σ.pool.inUse[k]? = some true ↔ ∃! id, ∃ s, σ.session? id = some s ∧ s.slot = some k
  resident : ∀ id s, σ.session? id = some s → (s.slot.isSome ↔ s.residency = .resident)
  /-- One grant, of the session's size, for an admitted session; none for anything else. -/
  grants : ∀ id, σ.adm.admitted.filter (fun g => g.1 == id) = match σ.session? id with
    | some s => if s.admitted then [(id, s.grantedCtx)] else []
    | none => []
  below : σ.adm.admitted ≠ [] → σ.adm.usedBytes < σ.adm.budgetBytes

theorem filter_fst_of_mem {id ctx : Nat} : ∀ {gs : List (Nat × Nat)}, (gs.map Prod.fst).Nodup → (id, ctx) ∈ gs →
    gs.filter (fun g => g.1 == id) = [(id, ctx)]
  | [], _, hm => by cases hm
  | g :: gs, hd, hm => by
    rw [map_cons, nodup_cons] at hd
    rcases mem_cons.1 hm with rfl | hm
    · have hnone : gs.filter (fun g => g.1 == id) = [] := filter_eq_nil_iff.2 fun x hx he =>
        hd.1 (mem_map.2 ⟨x, hx, beq_iff_eq.1 he⟩)
      rw [filter_cons_of_pos (by simp), hnone]
    · have hne : g.1 ≠ id := fun he => hd.1 (he ▸ mem_map.2 ⟨(id, ctx), hm, rfl⟩)
      rw [filter_cons_of_neg (by simpa using hne), filter_fst_of_mem hd.2 hm]

theorem Accounts.agreement (h : Accounts σ) : Agreement σ where
  apart := h.apart
  inUse := fun k => by
    constructor
    · intro hk
      obtain ⟨id, s, hs, hsk⟩ := h.used k hk
      exact ⟨id, ⟨s, hs, hsk⟩, fun a ⟨t, ht, htk⟩ => h.apart a id t s k ht hs htk hsk⟩
    · rintro ⟨id, ⟨s, hs, hsk⟩, -⟩
      rcases h.kind id s hs with hp | ⟨j, hj, hu⟩
      · rw [hp.slot] at hsk; cases hsk
      · cases hj.slot.symm.trans hsk
        exact hu
  resident := fun id s hs => by
    rcases h.kind id s hs with hp | ⟨k, hk, -⟩
    · simp [hp.slot, hp.residency]
    · simp [hk.slot, hk.residency]
  grants := fun id => by
    have hnone : (∀ c, (id, c) ∉ σ.adm.admitted) → σ.adm.admitted.filter (fun g => g.1 == id) = [] :=
      fun hn => filter_eq_nil_iff.2 fun g hg he => hn g.2 (by rw [← beq_iff_eq.1 he]; exact hg)
    cases hs : σ.session? id with
    | none =>
      refine hnone fun c hm => ?_
      obtain ⟨s, hs', -⟩ := (h.grants id c).1 hm
      cases hs.symm.trans hs'
    | some s =>
      dsimp only
      by_cases ha : s.admitted = true
      · rw [if_pos ha]
        exact filter_fst_of_mem h.once ((h.grants id s.grantedCtx).2 ⟨s, hs, ha, rfl⟩)
      rw [if_neg ha]
      refine hnone fun c hm => ha ?_
      obtain ⟨s', hs', ha', -⟩ := (h.grants id c).1 hm
      cases hs.symm.trans hs'
      exact ha'
  below := h.below

/-- **Session, slot and budget accounting agree along every run**; a failed `open` or `reopen_cold` changes nothing, and an
id that `open` has returned is never returned again. -/
theorem session_accounting (pool : SlotPool) (footprint : ModelFootprint) (budgetBytes : Nat)
    (hpool : ∀ b ∈ pool.inUse, b = false) (ops : List SessionOp) (σ : Serving)
    (hσ : σ = (Serving.start pool footprint budgetBytes).run ops) : Agreement σ ∧
    (∀ ctx now e, (σ.openSession ctx now).2 = .error e → (σ.openSession ctx now).1 = σ) ∧
    (∀ id ctx e, (σ.reopenCold id ctx).2 = .error e → (σ.reopenCold id ctx).1 = σ) ∧
    ∀ ctx now id, (σ.openSession ctx now).2 = .ok id →
      ∀ ops' ctx' now', (((σ.openSession ctx now).1.run ops').openSession ctx' now').2 ≠ .ok id := by
  have h : Accounts σ := hσ ▸ Accounts.run ops (accounts_start pool footprint budgetBytes hpool)
  refine ⟨h.agreement, fun ctx now e he => ?_, fun id ctx e he => ?_, fun ctx now id hid ops' ctx' now' => ?_⟩
  · rcases h.openSession_cases ctx now with ⟨e', he'⟩ | ⟨hok, -⟩
    · rw [he']
    · rw [hok] at he; cases he
  · rcases h.reopenCold_cases id ctx with ⟨e', he'⟩ | ⟨-, hok, -⟩
    · rw [he']
    · rw [hok] at he; cases he
  · rcases h.openSession_cases ctx now with ⟨e', he'⟩ | ⟨hok, hn, ha⟩
    · rw [he'] at hid; cases hid
    · rw [hok, Except.ok.injEq] at hid
      have hmono := Accounts.nextId_run ops' ha
      rcases (Accounts.run ops' ha).openSession_cases ctx' now' with ⟨e', he'⟩ | ⟨hok', -⟩
      · rw [he']
        nofun
      · rw [hok', ne_eq, Except.ok.injEq]
        omega

/-- Two slots over a pool of pages: the third session finds no slot; the first is swapped out, its slot goes to another, and
it comes back in the slot of the second. -/
def twoSlots : Serving :=
  (Serving.start (.newPagedWithStrides 2 1 1 4) ⟨100, 1⟩ 1000).run
    [.openSession 10 0, .openSession 20 0, .openSession 30 0, .markSwapped 0, .openSession 40 1, .close 1, .restore 0 5 2]

theorem session_accounting_two_slots : Agreement twoSlots ∧ (twoSlots.session? 0).map Session.slot = some (some 1) ∧
      (twoSlots.session? 2).map Session.slot = some (some 0) ∧ twoSlots.adm.admitted = [(2, 40), (0, 10)] :=
  ⟨(session_accounting (.newPagedWithStrides 2 1 1 4) ⟨100, 1⟩ 1000 (by decide) _ twoSlots rfl).1,
    by decide +kernel, by decide +kernel, by decide +kernel⟩

end Hipfire.Serve

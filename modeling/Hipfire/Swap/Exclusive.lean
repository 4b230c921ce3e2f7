import Hipfire.Swap.Directory
/-!
# Exclusive — one live store for a swap directory

The lock is on an inode, the directory's name for it can be bound anew.  Where `Drop` unlinks the lock file only while no
other process has it open, the inode of every open lock file is the one the name is bound to, so that two stores that hold
their locks are one.
-/
namespace Hipfire.Swap

open Function

variable {p q : Nat} {e : Event} {w w' : World}

/-- What a call can do to the lock file and to the phase of its process. -/
inductive Move (p : Nat) (w w' : World) : Event → Prop
  | kept {e : Event} (phase : Phase) (hname : w'.lockName = w.lockName) (hlocks : w'.locks = w.locks)
      (hphase : w'.phase = update w.phase p phase) (hfile : phase.file = (w.phase p).file)
      (hlock : phase.store.map (·.lock) = (w.phase p).store.map (·.lock)) : Move p w w' e
  | openedNamed {e : Event} (phase : Phase) (file : Nat) (hname : w.lockName = some file) (hname' : w'.lockName = some file)
      (hlocks : w'.locks = w.locks) (hphase : w'.phase = update w.phase p phase) (hfile : phase.file = some file)
      (hstore : phase.store = none) : Move p w w' e
  | openedNew {e : Event} (phase : Phase) (file : Nat) (hname : w.lockName = none) (hname' : w'.lockName = some file)
      (hlocks : w'.locks = w.locks) (hphase : w'.phase = update w.phase p phase) (hfile : phase.file = some file)
      (hstore : phase.store = none) : Move p w w' e
  | denied : Move p w w' .openDenied
  | locked {e : Event} (phase : Phase) (store : SwapStore) (file : Nat) (hfile : (w.phase p).file = some file)
      (hfree : w.locks file = none) (hname : w'.lockName = w.lockName)
      (hlocks : w'.locks = update w.locks file (some p)) (hphase : w'.phase = update w.phase p phase)
      (hstore : phase.store = some store) (hfile' : phase.file = some file) (hlock : store.lock = some file) : Move p w w' e
  | closed {e : Event} (phase : Phase) (hname : w'.lockName = w.lockName)
      (hlocks : w'.locks = (w.unlock ((w.phase p).store.bind (·.lock))).locks)
      (hphase : w'.phase = update w.phase p phase) (hfile : phase.file = none) (hstore : phase.store = none) :
      Move p w w' e
  | unlinked (created : Bool) (hbefore : w.phase p = .released created) (hname : w'.lockName = none)
      (hlocks : w'.locks = w.locks) (hphase : w'.phase = update w.phase p (.unlinked created)) :
      Move p w w' .unlinkLock

theorem Move.same : Move p w w e := .kept (w.phase p) rfl rfl (update_eq_self p w.phase).symm rfl rfl

theorem World.unlock_phase (w : World) (file : Option Nat) : (w.unlock file).phase = w.phase := by
  cases file <;> rfl

theorem World.unlock_lockName (w : World) (file : Option Nat) : (w.unlock file).lockName = w.lockName := by
  cases file <;> rfl

variable {created tier : Bool}

theorem move_openLock (h : w.phase p = .prepared created tier) : Move p w (openLock created tier p w) e := by
  unfold openLock
  split
  · split
    · rename_i file hname
      exact .openedNamed _ file hname hname rfl rfl rfl rfl
    · rename_i hname
      exact .openedNew _ w.nextInode hname rfl rfl rfl rfl rfl
  · refine .kept .absent rfl rfl rfl ?_ ?_
    · rw [h]
      rfl
    · rw [h]
      rfl

theorem move_tryLock {file : Nat} (h : w.phase p = .opened created tier file) :
    Move p w (tryLock created tier file p w) e := by
  unfold tryLock
  split
  · refine .closed .absent rfl ?_ rfl rfl rfl
    rw [h]
    rfl
  · rename_i hfree
    exact .locked _ _ file (by rw [h]; rfl) (Option.not_isSome_iff_eq_none.1 hfree) rfl rfl rfl rfl rfl rfl

theorem move_removeSpillFiles {again : Option (List Spill) → Phase} {next : Phase} {names : Option (List Spill)}
    (hagain : ∀ names', (again names').file = (w.phase p).file ∧ (again names').store = (w.phase p).store)
    (hnext : next.file = (w.phase p).file ∧ next.store = (w.phase p).store) :
    Move p w (removeSpillFiles again next names p w) e := by
  unfold removeSpillFiles
  split
  · exact .kept _ rfl rfl rfl (hagain _).1 (congrArg _ (hagain _).2)
  · exact .kept _ rfl rfl rfl (hagain _).1 (congrArg _ (hagain _).2)
  · exact .kept _ rfl rfl rfl hnext.1 (congrArg _ hnext.2)

/-- A live store's own calls keep its lock. -/
theorem move_live {store store' : SwapStore} (h : w.phase p = .live store)
    (hphase : w'.phase = update w.phase p (.live store')) (hlock : store'.lock = store.lock)
    (hname : w'.lockName = w.lockName) (hlocks : w'.locks = w.locks) : Move p w w' e := by
  refine .kept (.live store') hname hlocks hphase ?_ ?_
  · rw [h]
    exact hlock
  · rw [h]
    exact congrArg some hlock

/-- **What a system call does to the lock file and to its process.** -/
theorem exec_move (p : Nat) (e : Event) (w : World) : Move p w (exec p e w) e := by
  unfold exec
  split
  case h_1 h | h_2 h | h_3 h | h_4 h =>
    refine .kept _ rfl rfl rfl ?_ ?_
    · rw [h]
      rfl
    · rw [h]
      rfl
  case h_5 h => exact move_openLock h
  case h_6 => exact .denied
  case h_7 h => exact move_tryLock h
  case h_8 h | h_14 h =>
    refine move_removeSpillFiles (fun _ => ?_) ?_
    · rw [h]
      exact ⟨rfl, rfl⟩
    · rw [h]
      exact ⟨rfl, rfl⟩
  case h_9 h =>
    unfold writeTemp
    split
    · exact .kept _ rfl rfl (update_eq_self p w.phase).symm rfl rfl
    · exact .same
  case h_10 => exact .kept _ rfl rfl (update_eq_self p w.phase).symm rfl rfl
  case h_11 h =>
    unfold publish
    split
    · exact move_live h rfl rfl rfl rfl
    · exact .same
  case h_12 h =>
    unfold removeSpill
    split
    · exact move_live h rfl rfl rfl rfl
    · exact .same
  case h_13 h =>
    refine .kept _ rfl rfl rfl ?_ ?_
    · rw [h]
      rfl
    · rw [h]
      rfl
  case h_15 store h =>
    refine .closed (.released store.createdDir) (World.unlock_lockName _ _) ?_ ?_ rfl rfl
    · rw [h]
      rfl
    · exact congrArg (update · p _) (World.unlock_phase _ _)
  case h_16 created h => exact .unlinked created h rfl rfl rfl
  case h_17 created h =>
    unfold removeDir
    split
    all_goals
      refine .kept .absent rfl rfl rfl ?_ ?_
      · rw [h]
        rfl
      · rw [h]
        rfl
  case h_18 =>
    exact .closed .absent (World.unlock_lockName _ _) rfl (congrArg (update · p _) (World.unlock_phase _ _)) rfl rfl
  case h_19 => exact .same

/-! ## The lock guards the name -/

/-- Every open lock file is the one the name is bound to, and every store has its lock. -/
structure Guarded (w : World) : Prop where
  named : ∀ p file, (w.phase p).file = some file → w.lockName = some file
  held : ∀ p store, (w.phase p).store = some store → ∃ file, store.lock = some file ∧ w.locks file = some p

/-- The lock file is unlinked only while nobody has it open, and is never refused for want of permission. -/
structure Orderly (p : Nat) (e : Event) (w : World) : Prop where
  granted : e ≠ .openDenied
  alone : ∀ created, e = .unlinkLock → w.phase p = .released created → ∀ q, (w.phase q).file = none

variable {phase : Phase}

theorem Phase.file_of_store {store : SwapStore} (h : phase.store = some store) : phase.file = store.lock := by
  cases phase <;> cases h <;> rfl

/-- The stores of a guarded directory are one. -/
theorem Guarded.unique (h : Guarded w) {s s' : SwapStore} (hp : (w.phase p).store = some s)
    (hq : (w.phase q).store = some s') : p = q := by
  obtain ⟨i, hi, hlock⟩ := h.held p s hp
  obtain ⟨j, hj, hlock'⟩ := h.held q s' hq
  have hfile : (w.phase p).file = some i := by rw [Phase.file_of_store hp, hi]
  have hfile' : (w.phase q).file = some j := by rw [Phase.file_of_store hq, hj]
  have hij : some i = some j := (h.named p i hfile).symm.trans (h.named q j hfile')
  cases hij
  exact Option.some.inj (hlock.symm.trans hlock')

/-- A process whose file and store are as before, or that lost both, leaves the others guarded. -/
theorem Guarded.named_update (h : Guarded w) (hname : w'.lockName = w.lockName)
    (hphase : w'.phase = update w.phase p phase) (hfile : ∀ file, phase.file = some file → w.lockName = some file)
    (q file : Nat) (hq : (w'.phase q).file = some file) : w'.lockName = some file := by
  rw [hname]
  rw [hphase, update_apply] at hq
  split at hq
  · exact hfile file hq
  · exact h.named q file hq

/-- **One call keeps the lock on the name.** -/
theorem Guarded.step (h : Guarded w) (ho : Orderly p e w) (hm : Move p w w' e) : Guarded w' := by
  cases hm with
  | kept phase hname hlocks hphase hfile hlock =>
    refine ⟨h.named_update hname hphase fun file hf => h.named p file (hfile ▸ hf), fun q store hs => ?_⟩
    rw [hlocks]
    rw [hphase, update_apply] at hs
    split at hs
    · rename_i hq
      subst hq
      rw [hs] at hlock
      obtain ⟨store', hs', hl⟩ := Option.map_eq_some_iff.1 hlock.symm
      have hsame : store'.lock = store.lock := hl
      rw [← hsame]
      exact h.held q store' hs'
    · exact h.held q store hs
  | openedNamed phase file hname hname' hlocks hphase hfile hstore =>
    refine ⟨h.named_update (hname'.trans hname.symm) hphase fun file' hf => ?_, fun q store hs => ?_⟩
    · rw [hname, ← hf, hfile]
    rw [hlocks]
    rw [hphase, update_apply] at hs
    split at hs
    · cases hstore.symm.trans hs
    · exact h.held q store hs
  | openedNew phase file hname hname' hlocks hphase hfile hstore =>
    refine ⟨fun q file' hq => ?_, fun q store hs => ?_⟩
    · rw [hphase, update_apply] at hq
      split at hq
      · rw [hname', ← hq, hfile]
      · cases hname.symm.trans (h.named q file' hq)
    · rw [hlocks]
      rw [hphase, update_apply] at hs
      split at hs
      · cases hstore.symm.trans hs
      · exact h.held q store hs
  | denied => exact absurd rfl ho.granted
  | locked phase store file hfile hfree hname hlocks hphase hstore hfile' hlock =>
    refine ⟨h.named_update hname hphase fun file' hf => ?_, fun q store' hs => ?_⟩
    · rw [hfile'] at hf
      exact h.named p file' (hfile.trans hf)
    rw [hphase, update_apply] at hs
    rw [hlocks]
    split at hs
    · rename_i hq
      subst hq
      cases hstore.symm.trans hs
      exact ⟨file, hlock, update_self _ _ _⟩
    · obtain ⟨i, hi, hheld⟩ := h.held q store' hs
      refine ⟨i, hi, ?_⟩
      rw [update_of_ne (fun hif => ?_), hheld]
      rw [hif, hfree] at hheld
      cases hheld
  | closed phase hname hlocks hphase hfile hstore =>
    refine ⟨h.named_update hname hphase fun file hf => ?_, fun q store hs => ?_⟩
    · cases hfile.symm.trans hf
    rw [hphase, update_apply] at hs
    split at hs
    · cases hstore.symm.trans hs
    rename_i hqp
    obtain ⟨i, hi, hheld⟩ := h.held q store hs
    refine ⟨i, hi, ?_⟩
    rw [hlocks]
    cases hst : (w.phase p).store with
    | none => exact hheld
    | some s => exact absurd (h.unique hs hst) hqp
  | unlinked created hbefore hname hlocks hphase =>
    have halone := ho.alone created rfl hbefore
    refine ⟨fun q file hq => ?_, fun q store hs => ?_⟩
    · rw [hphase, update_apply] at hq
      split at hq
      · cases hq
      · rw [halone q] at hq
        cases hq
    · rw [hlocks]
      rw [hphase, update_apply] at hs
      split at hs
      · cases hs
      · exact h.held q store hs

/-- No process has begun. -/
def World.Idle (w : World) : Prop := ∀ p, w.phase p = .absent

theorem World.Idle.guarded (h : w.Idle) : Guarded w := by
  refine ⟨fun p file hf => ?_, fun p store hs => ?_⟩
  · rw [h p] at hf
    cases hf
  · rw [h p] at hs
    cases hs

theorem Phase.store_of_isLive (h : phase.isLive = true) : ∃ store, phase.store = some store := by
  cases phase with
  | live store | dropping store => exact ⟨store, rfl⟩
  | _ => cases h

theorem store_of_touched {n : Spill} (h : n ∈ touched p e w) : ∃ store, (w.phase p).store = some store := by
  unfold touched at h
  split at h
  case h_8 => cases h
  all_goals
    rename_i hphase
    exact ⟨_, by rw [hphase]; rfl⟩

/-- The calls of a run are orderly, each where it is made. -/
def OrderlyRun (events : List (Nat × Event)) (w : World) : Prop :=
  Along (fun c => exec c.1 c.2) (fun (c : Nat × Event) => Orderly c.1 c.2) events w

theorem guarded_run {events : List (Nat × Event)} (hidle : w.Idle) (horder : OrderlyRun events w) :
    Guarded (run events w) := by
  refine runAll_inv (fun c w' ho hg => ?_) events w horder hidle.guarded
  exact hg.step ho (exec_move c.1 c.2 w')

/-- **A swap directory has at most one live store**, and no call reads or deletes a file of another live store, where the
lock file is unlinked only while nobody has it open. -/
theorem one_live_store {events : List (Nat × Event)} (hidle : w.Idle) (horder : OrderlyRun events w) :
    (∀ p q, ((run events w).phase p).isLive = true → ((run events w).phase q).isLive = true → p = q) ∧
      ∀ p q e n, n ∈ touched p e (run events w) → (run events w).files.lookup n = some q →
        ((run events w).phase q).isLive = true → q = p := by
  have hguard := guarded_run hidle horder
  refine ⟨fun p q hp hq => ?_, fun p q e n hn _ hq => ?_⟩
  · obtain ⟨s, hs⟩ := Phase.store_of_isLive hp
    obtain ⟨s', hs'⟩ := Phase.store_of_isLive hq
    exact hguard.unique hs hs'
  · obtain ⟨s, hs⟩ := Phase.store_of_isLive hq
    obtain ⟨s', hs'⟩ := store_of_touched hn
    exact hguard.unique hs hs'

def emptyWorld : World := ⟨false, none, fun _ => none, 0, ∅, fun _ => .absent⟩

/-- The calls of a construction that succeeds in an empty directory. -/
def construct (p : Nat) : List (Nat × Event) :=
  [(p, .stat), (p, .prepare true), (p, .openLock), (p, .tryLock), (p, .sweep), (p, .sweep)]

/-- A run is orderly if the lock file is not refused, and unlinked only while none of the processes taking part has it open. -/
theorem orderlyRun_of_others (ps : List Nat) : ∀ {events : List (Nat × Event)} {w : World},
    (∀ c ∈ events, c.1 ∈ ps ∧ c.2 ≠ .openDenied) → (∀ q ∉ ps, (w.phase q).file = none) →
    Along (fun c => exec c.1 c.2) (fun (c : Nat × Event) w => c.2 = .unlinkLock → ∀ q ∈ ps, (w.phase q).file = none) events w →
    OrderlyRun events w
  | [], _, _, _, _ => trivial
  | ⟨p, e⟩ :: events, w, h, hothers, halone => by
    obtain ⟨⟨hp, hgranted⟩, hrest⟩ := List.forall_mem_cons.1 h
    refine ⟨⟨hgranted, fun _ he _ q => ?_⟩, orderlyRun_of_others ps hrest (fun q hq => ?_) halone.2⟩
    · exact if hq : q ∈ ps then halone.1 he q hq else hothers q hq
    · have hne : q ≠ p := fun he => hq (he ▸ hp)
      cases exec_move p e w <;> first | exact absurd rfl hgranted | simp [*]

/-- The calls of a `Drop` that finds no spill left. -/
def dropStore (p : Nat) : List (Nat × Event) := [(p, .drop), (p, .sweep), (p, .release), (p, .unlinkLock), (p, .removeDir)]

/-- A second construction fails while the first store is live, and succeeds once the first was dropped, lock file and all. -/
theorem one_live_store_in_turn :
    ((run (construct 1 ++ construct 2 ++ dropStore 1 ++ construct 2) emptyWorld).phase 2).isLive = true ∧
    ∀ p q, ((run (construct 1 ++ construct 2 ++ dropStore 1 ++ construct 2) emptyWorld).phase p).isLive = true →
      ((run (construct 1 ++ construct 2 ++ dropStore 1 ++ construct 2) emptyWorld).phase q).isLive = true → p = q :=
  ⟨by decide +kernel, (one_live_store (fun _ => rfl)
    (orderlyRun_of_others [1, 2] (by decide) (fun _ _ => rfl) (by decide +kernel))).1⟩

/-- **`Drop` unlinks the lock file of a store that took it over**: store 2 locks it after the release of store 1 and before its
unlink; store 3 then locks a new one, deletes what store 2 wrote and is live beside it. -/
theorem two_live_stores : ∃ (w : World) (events : List (Nat × Event)), w.Idle ∧ ((run events w).phase 2).isLive = true ∧
    (∃ n, n ∈ touched 3 .sweep (run events w) ∧ (run events w).files.lookup n = some 2) ∧
    ((run (events ++ [(3, .sweep), (3, .sweep)]) w).phase 2).isLive = true ∧
    ((run (events ++ [(3, .sweep), (3, .sweep)]) w).phase 3).isLive = true := by
  refine ⟨emptyWorld, construct 1 ++ [(1, .drop), (1, .sweep), (1, .release)] ++ construct 2 ++ [(2, .writeTemp 7),
    (2, .publish 7), (1, .unlinkLock), (1, .removeDir), (3, .stat), (3, .prepare true), (3, .openLock), (3, .tryLock),
    (3, .sweep)], fun _ => rfl, by decide +kernel, ⟨⟨7, false⟩, by decide +kernel, by decide +kernel⟩, by decide +kernel,
    by decide +kernel⟩

end Hipfire.Swap

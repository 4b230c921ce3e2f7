import Hipfire.Terminal.Claims
/-!
# Aborts — an abort before any commit is final

An abort that a request's owner accepted stays with the request through every handoff.  The exception is the handoff of an
aborted entry beside which a singleton of the same key took a commit: the adoption keeps the singleton's decision.
-/
namespace Hipfire.Terminal

variable {K : AttemptKey} {op : Op} {v v' : View} {o o' : Owner} {s : State} {b : Bool}

/-! ## Records of every reachable state -/

/-- A key has no entry beside a tombstone, no singleton beside a tombstone that waits, and no two handoffs of one admission. -/
structure Sound (v : View) : Prop where
  alone : ∀ h, v.handoff = some h → v.entry = none
  away : ∀ h, v.handoff = some h → h.adopted = false → v.single = none
  issued_le : ∀ t ∈ v.issued, t.admission ≤ v.next
  entry_le : ∀ e, v.entry = some e → e.generation ≤ v.next
  fresh : ∀ e, v.entry = some e → ∀ t ∈ v.issued, t.admission ≠ e.generation
  captured : ∀ h, v.handoff = some h → h.singleton = none → ∀ t ∈ v.issued, t.admission = h.admission → t.singleton = none

/-- **One operation keeps the records sound.** -/
theorem Sound.step (h : Sound v) (hc : Change K op v v' b) : Sound v' := by
  cases hc with
  | idle hn =>
    exact ⟨h.alone, h.away, fun t ht => Nat.le_trans (h.issued_le t ht) hn, fun e he => Nat.le_trans (h.entry_le e he) hn,
      h.fresh, h.captured⟩
  | displaced => exact ⟨h.alone, fun _ _ _ => rfl, h.issued_le, h.entry_le, h.fresh, h.captured⟩
  | activated _ hh =>
    refine ⟨h.alone, fun h' hh' => ?_, h.issued_le, h.entry_le, h.fresh, h.captured⟩
    cases hh.symm.trans hh'
  | cleared =>
    exact ⟨nofun, nofun, h.issued_le, h.entry_le, h.fresh, nofun⟩
  | clearedAll =>
    exact ⟨nofun, nofun, h.issued_le, nofun, nofun, nofun⟩
  | entryCleared =>
    exact ⟨fun _ _ => rfl, h.away, h.issued_le, nofun, nofun, h.captured⟩
  | announced he hh =>
    refine ⟨fun h' hh' => ?_, h.away, fun t ht => Nat.le_succ_of_le (h.issued_le t ht), fun e he' => ?_, fun e he' t ht => ?_,
      h.captured⟩
    · cases hh.symm.trans hh'
    · cases he'
      exact Nat.le_refl _
    · cases he'
      exact Nat.ne_of_lt (Nat.lt_succ_of_le (h.issued_le t ht))
  | entryMoved he | entryAborted he | entryCommitted he | entryClaimed he =>
    have hle := h.entry_le _ he
    have hfresh := h.fresh _ he
    refine ⟨fun h' hh' => ?_, h.away, h.issued_le, fun e' he' => ?_, fun e' he' => ?_, h.captured⟩
    · cases he.symm.trans (h.alone h' hh')
    · cases he'
      exact hle
    · cases he'
      exact hfresh
  | singleClaimed hs | singleClaimedAt hs | singleAborted hs | singleCommitted hs | singleReady hs =>
    refine ⟨h.alone, fun h' hh' ha => ?_, h.issued_le, h.entry_le, h.fresh, h.captured⟩
    cases hs.symm.trans (h.away h' hh' ha)
  | handoffAborted hh | handoffCommitted hh =>
    have haway := h.away _ hh
    have hcaptured := h.captured _ hh
    refine ⟨fun h' hh' => h.alone _ hh, fun h' hh' ha => ?_, h.issued_le, h.entry_le, h.fresh, fun h' hh' hnone => ?_⟩
    · cases hh'
      rw [haway ha]
      exact ite_self _
    · cases hh'
      exact hcaptured (Option.map_eq_none_iff.1 hnone)
  | handedOff hh he =>
    refine ⟨fun _ _ => rfl, fun _ _ _ => rfl, ?_, nofun, nofun, fun h' hh' hnone => ?_⟩
    · exact List.forall_mem_append.2 ⟨h.issued_le, List.forall_mem_singleton.2 (h.entry_le _ he)⟩
    · cases hh'
      exact List.forall_mem_append.2 ⟨fun t ht hadm => absurd hadm (h.fresh _ he t ht),
        List.forall_mem_singleton.2 fun _ => hnone⟩
  | adopted n hh ha =>
    refine ⟨fun h' hh' => h.alone _ hh, fun h' hh' ha' => ?_, h.issued_le, h.entry_le, h.fresh, fun h' hh' hnone => ?_⟩
    · cases hh'
      cases ha'
    · cases hh'
      cases hnone
  | toBatch hs =>
    refine ⟨nofun, nofun, fun t ht => Nat.le_succ_of_le (h.issued_le t ht), fun e he => ?_,
      fun e he t ht => ?_, nofun⟩
    · cases he
      exact Nat.le_refl _
    · cases he
      exact Nat.ne_of_lt (Nat.lt_succ_of_le (h.issued_le t ht))

def Reachable (s : State) : Prop := ∃ ops, s = runOps ops {}

theorem sound_run : ∀ (ops : List Op) {s : State}, Sound (view K s) → Sound (view K (runOps ops s))
  | [], _, h => h
  | op :: ops, s, h => sound_run ops (h.step (exec_change K op s))

theorem Reachable.sound (h : Reachable s) : Sound (view K s) := by
  obtain ⟨ops, rfl⟩ := h
  have hinit : Sound (view K {}) := by
    refine ⟨fun _ hh => ?_, fun _ hh => ?_, nofun, fun _ he => ?_, fun _ he => ?_, fun _ hh => ?_⟩
    all_goals first
      | simp [view] at hh
      | simp [view] at he
  exact sound_run ops hinit

/-! ## Decisions -/

/-- The owner holds no commit decision. -/
def Uncommitted (v : View) : Owner → Prop
  | .batch => ∀ e, v.entry = some e → e.commitLatched = false
  | .moving => ∀ h a, v.handoff = some h → h.singleton = some a → a.decision ≠ some .commit
  | .single => ∀ a, v.single = some a → a.decision ≠ some .commit

/-- The owner is there and holds an abort. -/
def HoldsAbort (v : View) : Owner → Prop
  | .batch => ∃ e, v.entry = some e ∧ e.abortLatched = true
  | .moving => ∃ h, v.handoff = some h ∧ h.adopted = false ∧ h.abortLatched = true
  | .single => ∃ a, v.single = some a ∧ a.decision = some .abort ∧ ∀ h, v.handoff = some h → h.adopted = true

/-- An abort control that the request's owner, without a commit so far, accepts. -/
def Accepts (K : AttemptKey) (op : Op) (s : State) (o : Owner) : Prop :=
  (op = .control .abort K ∨ op = .batchControl .abort K) ∧ Uncommitted (view K s) o ∧ HoldsAbort (view K (exec op s).1) o

/-- Some poll or wait of the owner returns a commit. -/
def PollsCommit (K : AttemptKey) (s : State) : Owner → Prop
  | .batch => ∃ now generation, batchPollDecision now K generation s = some .commit ∨
      ∃ expired, batchWaitDecision now expired K generation s = some .commit
  | .moving => (∃ now generation, batchPollDecision now K generation s = some .commit ∨
      ∃ expired, batchWaitDecision now expired K generation s = some .commit) ∨
      ∃ expired, (waitTerminalControlDecision expired K s).2 = some .commit
  | .single => ∃ expired, (waitTerminalControlDecision expired K s).2 = some .commit

/-- No handoff captures, beside an aborted entry, a singleton that took a commit. -/
def NoCommitBeside (K : AttemptKey) (op : Op) (v : View) : Prop :=
  ∀ e a, op = .handoff K e.generation → v.entry = some e → e.abortLatched = true → v.single = some a →
    a.decision ≠ some .commit

/-! ## The abort stays -/

/-- The abort is with the owner, in a form that no commit can follow. -/
def Final (v : View) : Owner → Prop
  | .batch => ∃ e, v.entry = some e ∧ e.abortLatched = true
  | .moving => ∃ h, v.handoff = some h ∧ h.adopted = false ∧
      ((∃ a, h.singleton = some a ∧ a.decision = some .abort) ∨
        h.abortLatched = true ∧ ∀ a, h.singleton = some a → a.decision = none)
  | .single => ∃ a, v.single = some a ∧ a.decision = some .abort ∧ ∀ h, v.handoff = some h → h.adopted = true

theorem final_batch (hsound : Sound v) (hc : Change K op v v' b) (hcond : NoCommitBeside K op v) (h : Final v .batch)
    (hf : follow K op v v' .batch = some o') : Final v' o' := by
  obtain ⟨e, he, habort⟩ := h
  have hh : v.handoff = none := Option.eq_none_iff_forall_ne_some.2 fun h' hh => by cases he.symm.trans (hsound.alone h' hh)
  cases hc with
  | entryMoved he' | entryCommitted he' | entryClaimed he' =>
    cases he.symm.trans he'
    cases hf
    exact ⟨_, rfl, habort⟩
  | entryAborted he' =>
    cases hf
    exact ⟨_, rfl, rfl⟩
  | handoffAborted hh' | handoffCommitted hh' | adopted _ hh' =>
    cases hh.symm.trans hh'
  | handedOff _ he' =>
    cases he.symm.trans he'
    cases hf
    refine ⟨_, rfl, rfl, ?_⟩
    cases hs : v.single with
    | none => exact .inr ⟨habort, nofun⟩
    | some a =>
      cases hd : a.decision with
      | none => exact .inr ⟨habort, fun a' ha' => by cases ha'; exact hd⟩
      | some d =>
        cases d with
        | abort => exact .inl ⟨a, rfl, hd⟩
        | commit => exact absurd hd (hcond e a rfl he habort hs)
  | announced he' | toBatch _ _ he' =>
    cases he.symm.trans he'
  | clearedAll | entryCleared => simp [follow, View.waiting, hh] at hf
  | idle | displaced | activated | cleared | singleClaimed | singleClaimedAt | singleAborted | singleCommitted | singleReady =>
    simp only [follow, he] at hf
    cases hf
    exact ⟨e, he, habort⟩

theorem final_moving (hsound : Sound v) (hc : Change K op v v' b) (h : Final v .moving)
    (hf : follow K op v v' .moving = some o') : Final v' o' := by
  obtain ⟨h, hh, ha, hdec⟩ := h
  have hs : v.single = none := hsound.away h hh ha
  have he : v.entry = none := hsound.alone h hh
  cases hc with
  | entryMoved he' | entryAborted he' | entryCommitted he' | entryClaimed he' | handedOff _ he' =>
    cases he.symm.trans he'
  | singleClaimed hs' | singleClaimedAt hs' | singleAborted hs' | singleCommitted hs' | singleReady hs' | toBatch hs' =>
    cases hs.symm.trans hs'
  | activated _ hh' | announced _ hh' =>
    cases hh.symm.trans hh'
  | clearedAll | cleared => simp [follow, View.waiting] at hf
  | handoffAborted hh' =>
    cases hh.symm.trans hh'
    simp only [follow, View.waiting, Option.any_some, ha] at hf
    cases hf
    refine ⟨_, rfl, ha, ?_⟩
    cases hsing : h.singleton with
    | none => exact .inr ⟨rfl, fun a' ha' => by simp at ha'⟩
    | some a =>
      refine .inl ⟨latch .abort a, rfl, ?_⟩
      rcases hdec with ⟨a', ha', hd⟩ | ⟨-, hnone⟩
      · cases hsing.symm.trans ha'
        exact latchAbort_of_abort hd
      · rw [decision_latch, hnone a hsing]
        rfl
  | handoffCommitted hh' hlatch =>
    cases hh.symm.trans hh'
    simp only [follow, View.waiting, Option.any_some, ha] at hf
    cases hf
    rcases hdec with ⟨a, hsing, hd⟩ | ⟨hl, -⟩
    · exact ⟨_, rfl, ha, .inl ⟨latchCommit a, by simp [hsing], latchCommit_of_abort hd⟩⟩
    · cases hl.symm.trans hlatch
  | adopted n hh' _ ht hadm =>
    cases hh.symm.trans hh'
    cases hf
    refine ⟨_, rfl, ?_, fun h' hh' => by cases hh'; rfl⟩
    unfold adoptee
    rcases hdec with ⟨a, hsing, hd⟩ | ⟨hl, hnone⟩
    · rw [hsing]
      split
      · exact latchAbort_of_abort hd
      · exact hd
    · rw [if_pos (.inl hl), decision_latch]
      cases hsing : h.singleton with
      | some a =>
        rw [Option.some_or, Option.getD_some, hnone a hsing]
        rfl
      | none =>
        rw [hsound.captured h hh hsing _ ht hadm.symm]
        rfl
  | idle | entryCleared | displaced =>
    simp only [follow, View.waiting, hh, Option.any_some, ha] at hf
    cases hf
    exact ⟨h, hh, ha, hdec⟩

theorem final_single (hc : Change K op v v' b) (h : Final v .single) (hf : follow K op v v' .single = some o') :
    Final v' o' := by
  obtain ⟨a, hs, hd, hadopted⟩ := h
  obtain ⟨rfl, a', hs', hadopted', habort, -⟩ | ⟨rfl, -, h, hh, hnot, hsing⟩ | ⟨rfl, -, e, he, hlatched, -⟩ :=
    single_step hc hs hadopted hf
  · exact ⟨a', hs', habort hd, hadopted'⟩
  · exact ⟨h, hh, hnot, .inl ⟨a, hsing, hd⟩⟩
  · exact ⟨e, he, by simp [hlatched, hd]⟩

/-- **One operation keeps the abort with the request.** -/
theorem final_step (hsound : Sound v) (hc : Change K op v v' b) (hcond : NoCommitBeside K op v) (h : Final v o)
    (hf : follow K op v v' o = some o') : Final v' o' := by
  cases o with
  | batch => exact final_batch hsound hc hcond h hf
  | moving => exact final_moving hsound hc h hf
  | single => exact final_single hc h hf

theorem final_run : ∀ (ops : List Op) {s : State} {o : Owner}, Sound (view K s) → Final (view K s) o →
    Along (NoCommitBeside K) K ops s → followRun K ops s o = some o' → Final (view K (runOps ops s)) o'
  | [], s, o, _, h, _, hf => by
    cases hf
    exact h
  | op :: ops, s, o, hsound, h, hcond, hf => by
    obtain ⟨o₁, ho₁, hf⟩ := Option.bind_eq_some_iff.1 hf
    have hc := exec_change K op s
    exact final_run ops (hsound.step hc) (final_step hsound hc hcond.1 h ho₁) hcond.2 hf

/-! ## Acceptance and polls -/

/-- An abort accepted by an owner without a commit is final. -/
theorem final_of_accepts (h : Accepts K op s o) : Final (view K (exec op s).1) o := by
  obtain ⟨hop, hun, hab⟩ := h
  cases o with
  | batch | single => exact hab
  | moving =>
    obtain ⟨h', hh', ha', hl'⟩ := hab
    refine ⟨h', hh', ha', ?_⟩
    -- only a control of the tombstone leaves one behind, so it was there before
    cases hh : s.batch.handoffs.lookup K with
    | none =>
      have hnone : (view K (exec op s).1).handoff = none := by
        rcases hop with rfl | rfl
        · simp only [exec, applyTerminalControl, hh]
          exact hh
        simp only [exec, batchApplyTerminalControl, hh]
        unfold updateEntry
        split <;> exact hh
      cases hnone.symm.trans hh'
    | some h =>
      have hafter : (view K (exec op s).1).handoff =
          some { h with abortLatched := true, singleton := h.singleton.map (latch .abort) } := by
        rcases hop with rfl | rfl
        · simp [exec, applyTerminalControl, hh, controlHandoff, applyHandoffControl, view]
        · simp [exec, batchApplyTerminalControl, hh, controlHandoff, applyHandoffControl, view]
      cases hafter.symm.trans hh'
      cases hsing : h.singleton with
      | none => exact .inr ⟨rfl, fun a ha => by simp at ha⟩
      | some a =>
        refine .inl ⟨latch .abort a, rfl, ?_⟩
        rw [decision_latch]
        have := hun h a hh hsing
        cases hd : a.decision with
        | none => rfl
        | some d =>
          cases d with
          | abort => rfl
          | commit => exact absurd hd this

theorem not_batchPoll_of_abort {e : BatchRegistryEntry} (he : s.batch.entries.lookup K = some e) (ha : e.abortLatched = true)
    (now generation : Nat) : batchPollDecision now K generation s ≠ some .commit ∧
      ∀ expired, batchWaitDecision now expired K generation s ≠ some .commit := by
  constructor
  · unfold batchPollDecision
    rw [he]
    dsimp only
    split <;> simp
  · unfold batchWaitDecision
    rw [he]
    simp [ha]

theorem not_pollsCommit (hsound : Sound (view K s)) (h : Final (view K s) o) : ¬ PollsCommit K s o := by
  cases o with
  | batch =>
    obtain ⟨e, he, ha⟩ := h
    rintro ⟨now, generation, hp | ⟨expired, hp⟩⟩
    · exact (not_batchPoll_of_abort he ha now generation).1 hp
    · exact (not_batchPoll_of_abort he ha now generation).2 expired hp
  | moving =>
    obtain ⟨h, hh, hnot, -⟩ := h
    have he : s.batch.entries.lookup K = none := hsound.alone h hh
    have hs : s.terminal.activeFor K = none := hsound.away h hh hnot
    have hh : s.batch.handoffs.lookup K = some h := hh
    rintro (⟨now, generation, hp | ⟨expired, hp⟩⟩ | ⟨expired, hp⟩)
    · simp only [batchPollDecision, he, hh] at hp
      split at hp
      · cases hp
      · cases hp
    · simp [batchWaitDecision, he] at hp
    · simp [waitTerminalControlDecision, hs] at hp
  | single =>
    obtain ⟨a, hs, hd, -⟩ := h
    have hs : s.terminal.activeFor K = some a := hs
    rintro ⟨expired, hp⟩
    simp [waitTerminalControlDecision, hs, hd] at hp

/-- **An accepted abort is final**, where no handoff captures a committed singleton beside an aborted entry. -/
theorem abort_final {ops : List Op} (hreach : Reachable s) (haccept : Accepts K op s o)
    (hcond : Along (NoCommitBeside K) K ops (exec op s).1) (hlive : followRun K ops (exec op s).1 o = some o') :
    ¬ PollsCommit K (runOps ops (exec op s).1) o' := by
  have hsound : Sound (view K (exec op s).1) := hreach.sound.step (exec_change K op s)
  have hfinal := final_run ops hsound (final_of_accepts haccept) hcond hlive
  exact not_pollsCommit (sound_run ops hsound) hfinal

/-- An abort of an announced request survives its move to the singleton and a later commit. -/
theorem abort_final_handed : ¬ PollsCommit ⟨"r", 1⟩ (runOps [.handoff ⟨"r", 1⟩ 1, .adopt ⟨"r", 1⟩ 0, .ready ⟨"r", 1⟩,
    .control .commit ⟨"r", 1⟩, .batchControl .commit ⟨"r", 1⟩]
    (exec (.batchControl .abort ⟨"r", 1⟩) (runOps [.announce ⟨"r", 1⟩] {})).1) .single := by
  refine abort_final (o := .batch) ⟨[.announce ⟨"r", 1⟩], rfl⟩ ⟨.inr rfl, fun e he => ?_, ⟨_, rfl, rfl⟩⟩ ?_ (by decide +kernel)
  · cases he
    rfl
  · refine ⟨fun e a _ _ _ hs => ?_, fun _ _ h => (by cases h), fun _ _ h => (by cases h), fun _ _ h => (by cases h),
      fun _ _ h => (by cases h), trivial⟩
    cases hs

/-- **An adoption keeps a commit that came after the abort**: a singleton activated beside the aborted entry takes it. -/
theorem abort_overtaken : ∃ (K : AttemptKey) (s : State) (op : Op) (o o' : Owner) (ops : List Op), Reachable s ∧
    Accepts K op s o ∧ followRun K ops (exec op s).1 o = some o' ∧ PollsCommit K (runOps ops (exec op s).1) o' := by
  refine ⟨⟨"r", 1⟩, runOps [.announce ⟨"r", 1⟩, .control .abort ⟨"r", 1⟩] {}, .batchControl .abort ⟨"r", 1⟩, .batch, .single,
    [.activate ⟨"r", 1⟩, .ready ⟨"r", 1⟩, .control .commit ⟨"r", 1⟩, .batchControl .commit ⟨"r", 1⟩, .handoff ⟨"r", 1⟩ 1,
      .adopt ⟨"r", 1⟩ 0], ⟨_, rfl⟩, ⟨.inr rfl, fun e he => ?_, ⟨_, rfl, rfl⟩⟩, by decide +kernel, ⟨false, by decide +kernel⟩⟩
  cases he
  rfl

end Hipfire.Terminal

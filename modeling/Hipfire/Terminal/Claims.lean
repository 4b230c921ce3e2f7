import Hipfire.Terminal.Changes
/-!
# Claims — one terminal for each admission of a key

A request is followed from owner to owner: its batch entry, the tombstone while it moves, the active singleton.  Where a
handoff takes no entry that was claimed already, the claims that succeed while the request has an owner are at most one.
-/
namespace Hipfire.Terminal

variable {K : AttemptKey} {op : Op} {v v' : View} {o o' : Owner} {s : State}

/-! ## Owners -/

/-- Who holds a request. -/
inductive Owner
  | batch
  | moving
  | single
  deriving DecidableEq, Repr

/-- A tombstone that waits for adoption. -/
def View.waiting (v : View) : Bool := v.handoff.any fun h => !h.adopted

/-- The owner of the request after an operation, from the records of its key before and after it. -/
def follow (K : AttemptKey) (op : Op) (v v' : View) : Owner → Option Owner
  | .batch => if v'.entry.isSome then some .batch else if v'.waiting then some .moving else none
  | .moving =>
    if v'.waiting then some .moving else if v'.handoff.isSome && v'.single.isSome then some .single else none
  | .single =>
    -- a fresh transaction replaces the one followed
    if op = .activate K ∧ v.handoff = none then none
    else if v'.single.isSome then some .single
    -- captured by the handoff of an entry
    else if v.handoff.isNone && v'.waiting then some .moving
    else if v.entry.isNone && v'.entry.isSome then some .batch
    else none

/-- The owner after a run; none once the request's owner was cleared or replaced. -/
def followRun (K : AttemptKey) : List Op → State → Owner → Option Owner
  | [], _, o => some o
  | op :: ops, s, o => (follow K op (view K s) (view K (exec op s).1) o).bind (followRun K ops (exec op s).1)

/-- The claims for the key that succeeded in a run. -/
def claimCount (K : AttemptKey) : List Op → State → Nat
  | [], _ => 0
  | op :: ops, s => (op.claims K && (exec op s).2).toNat + claimCount K ops (exec op s).1

def runOps : List Op → State → State
  | [], s => s
  | op :: ops, s => runOps ops (exec op s).1

/-- A condition on every operation of a run, at the records it meets. -/
def Along (C : Op → View → Prop) (K : AttemptKey) : List Op → State → Prop
  | [], _ => True
  | op :: ops, s => C op (view K s) ∧ Along C K ops (exec op s).1

/-- An operation that begins an admission of the key: an announcement, or an activation for a key that nobody owns. -/
def Admits (K : AttemptKey) (op : Op) (s : State) (o : Owner) : Prop :=
  (op = .announce K ∧ (batchAnnounceTerminal K s).2.isSome ∧ (view K s).single = none ∧ o = .batch) ∨
    (op = .activate K ∧ (view K s).handoff = none ∧ (view K s).entry = none ∧ o = .single)

/-! ## Fair operations -/

/-- A handoff takes an entry that is not claimed; the singleton is claimed past the wire, and the key announced, only where
the other side does not own it. -/
structure Fair (K : AttemptKey) (op : Op) (v : View) : Prop where
  handoff : ∀ e, op = .handoff K e.generation → v.entry = some e → e.terminalClaimed = false
  claim : op = .claim K → v.entry = none
  announce : op = .announce K → v.single = none

/-! ## Counting -/

/-- The claims so far are on record with the request's owner. -/
def Counted (v : View) (n : Nat) : Owner → Prop
  | .batch => ∃ e, v.entry = some e ∧ v.handoff = none ∧ n ≤ e.terminalClaimed.toNat
  | .moving => ∃ h, v.entry = none ∧ v.single = none ∧ v.handoff = some h ∧ h.adopted = false ∧ n = 0
  | .single => ∃ a, v.entry = none ∧ v.single = some a ∧ (∀ h, v.handoff = some h → h.adopted = true) ∧
      n ≤ a.terminalClaimed.toNat

variable {n : Nat}

theorem Counted.le_one (h : Counted v n o) : n ≤ 1 := by
  cases o with
  | batch =>
    obtain ⟨e, -, -, hn⟩ := h
    exact Nat.le_trans hn (Bool.toNat_le _)
  | moving =>
    obtain ⟨_, -, -, -, -, rfl⟩ := h
    exact Nat.zero_le _
  | single =>
    obtain ⟨a, -, -, -, hn⟩ := h
    exact Nat.le_trans hn (Bool.toNat_le _)

theorem decision_latch (d : Decision) (a : ActiveTerminalControl) : (latch d a).decision = some (a.decision.getD d) := by
  unfold latch
  cases h : a.decision <;> simp [h]

variable {a : ActiveTerminalControl}

theorem latchCommit_of_abort (h : a.decision = some .abort) : (latchCommit a).decision = some .abort := by
  unfold latchCommit
  split
  · rw [decision_latch, h]
    rfl
  · exact h

theorem latchAbort_of_abort (h : a.decision = some .abort) : (latch .abort a).decision = some .abort := by
  rw [decision_latch, h]
  rfl

@[simp]
theorem latch_claimed (d : Decision) (a : ActiveTerminalControl) : (latch d a).terminalClaimed = a.terminalClaimed := by
  unfold latch
  split <;> rfl

@[simp]
theorem latchCommit_claimed (a : ActiveTerminalControl) : (latchCommit a).terminalClaimed = a.terminalClaimed := by
  unfold latchCommit
  split
  · exact latch_claimed _ _
  · rfl

variable {b : Bool}

theorem counted_batch (hc : Change K op v v' b) (hfair : Fair K op v) (h : Counted v n .batch)
    (hf : follow K op v v' .batch = some o') : Counted v' (n + b.toNat) o' := by
  obtain ⟨e, he, hh, hn⟩ := h
  cases hc with
  | entryMoved he' | entryAborted he' | entryCommitted he' =>
    cases he.symm.trans he'
    cases hf
    exact ⟨_, rfl, hh, hn⟩
  | entryClaimed he' hclaimed =>
    cases he.symm.trans he'
    cases hf
    rw [hclaimed] at hn
    exact ⟨_, rfl, hh, Nat.add_le_add_right hn 1⟩
  | singleClaimed _ _ hwire =>
    have hnone := hwire.elim hfair.claim (fun h => h)
    cases he.symm.trans hnone
  | handoffAborted hh' | handoffCommitted hh' | adopted _ hh' =>
    cases hh.symm.trans hh'
  | handedOff _ he' =>
    cases he.symm.trans he'
    cases hf
    rw [hfair.handoff e rfl he] at hn
    exact ⟨_, rfl, rfl, rfl, rfl, Nat.le_zero.1 hn⟩
  | announced he' | toBatch _ _ he' =>
    cases he.symm.trans he'
  | clearedAll | entryCleared =>
    simp [follow, View.waiting, hh] at hf
  | cleared =>
    simp only [follow, he] at hf
    cases hf
    exact ⟨e, he, rfl, hn⟩
  | idle | displaced | activated | singleClaimedAt | singleAborted | singleCommitted | singleReady =>
    simp only [follow, he] at hf
    cases hf
    exact ⟨e, he, hh, hn⟩

theorem counted_moving (hc : Change K op v v' b) (h : Counted v n .moving)
    (hf : follow K op v v' .moving = some o') : Counted v' (n + b.toNat) o' := by
  obtain ⟨h, he, hs, hh, ha, rfl⟩ := h
  cases hc with
  | entryMoved he' | entryAborted he' | entryCommitted he' | entryClaimed he' | handedOff _ he' =>
    cases he.symm.trans he'
  | singleClaimed hs' | singleClaimedAt hs' | singleAborted hs' | singleCommitted hs' | singleReady hs' | toBatch hs' =>
    cases hs.symm.trans hs'
  | activated _ hh' | announced _ hh' =>
    cases hh.symm.trans hh'
  | handoffAborted hh' | handoffCommitted hh' =>
    cases hh.symm.trans hh'
    simp only [follow, View.waiting, Option.any_some, ha] at hf
    cases hf
    exact ⟨_, he, by simp [ha, hs], rfl, ha, rfl⟩
  | adopted _ hh' =>
    cases hf
    exact ⟨_, he, rfl, fun h' hh' => by cases hh'; rfl, Nat.zero_le _⟩
  | clearedAll | cleared =>
    simp [follow, View.waiting] at hf
  | idle | entryCleared | displaced =>
    simp only [follow, View.waiting, hh, Option.any_some, ha] at hf
    cases hf
    exact ⟨h, by simp [he], by simp [hs], hh, ha, rfl⟩

/-- **What an operation does to a request that the singleton owns.** -/
theorem single_step (hc : Change K op v v' b) (hs : v.single = some a) (hadopted : ∀ h, v.handoff = some h → h.adopted = true)
    (hf : follow K op v v' .single = some o') :
    (o' = .single ∧ ∃ a', v'.single = some a' ∧ (∀ h, v'.handoff = some h → h.adopted = true) ∧
      (a.decision = some .abort → a'.decision = some .abort) ∧ (v.entry = none → op ≠ .announce K →
        v'.entry = none ∧ a.terminalClaimed.toNat + b.toNat ≤ a'.terminalClaimed.toNat)) ∨
    (o' = .moving ∧ v.entry ≠ none ∧ ∃ h, v'.handoff = some h ∧ h.adopted = false ∧ h.singleton = some a) ∨
    (o' = .batch ∧ b = false ∧ ∃ e, v'.entry = some e ∧ e.abortLatched = (a.decision == some .abort) ∧
      a.terminalClaimed = false ∧ v'.handoff = none) := by
  by_cases hnew : op = .activate K ∧ v.handoff = none
  · rw [follow, if_pos hnew] at hf
    cases hf
  rw [follow, if_neg hnew] at hf
  cases hc with
  | activated _ hh => exact absurd ⟨rfl, hh⟩ hnew
  | adopted _ hh hnot =>
    rw [hadopted _ hh] at hnot
    cases hnot
  | singleClaimed hs' | singleClaimedAt hs' | singleReady hs' | singleAborted hs' | singleCommitted hs' =>
    cases hs.symm.trans hs'
    cases hf
    refine .inl ⟨rfl, _, rfl, hadopted, fun hd => ?_, fun he _ => ⟨he, ?_⟩⟩
    · simp [hd, latchAbort_of_abort, latchCommit_of_abort]
    · simp [*, Bool.toNat_le]
  | handoffAborted hh | handoffCommitted hh =>
    have had := hadopted _ hh
    rw [if_pos had, hs] at hf
    cases hf
    refine .inl ⟨rfl, _, by rw [if_pos had, hs]; rfl, fun _ hh' => by cases hh'; exact had, fun hd => ?_, fun he _ => ⟨he, ?_⟩⟩
    · simp [hd, latchAbort_of_abort, latchCommit_of_abort]
    · simp
  | handedOff hh he =>
    simp only [hh, Option.isSome_none, Bool.false_eq_true, if_false, Option.isNone_none, View.waiting, Option.any_some,
      Bool.not_false, Bool.and_self, if_true] at hf
    cases hf
    exact .inr (.inl ⟨rfl, by simp [he], _, rfl, rfl, hs⟩)
  | toBatch hs' hclaimed he =>
    cases hs.symm.trans hs'
    simp only [he, Option.isSome_none, Bool.false_eq_true, if_false, View.waiting, Option.any_none, Bool.and_false,
      Option.isNone_none, Option.isSome_some, Bool.and_self, if_true] at hf
    cases hf
    exact .inr (.inr ⟨rfl, rfl, _, rfl, rfl, hclaimed, rfl⟩)
  | displaced | cleared => cases hh : v.handoff <;> cases he : v.entry <;> simp [View.waiting, hh, he] at hf
  | clearedAll | announced | idle | entryCleared | entryMoved he | entryAborted he | entryCommitted he | entryClaimed he =>
    simp only [hs, Option.isSome_some, if_true] at hf
    cases hf
    exact .inl ⟨rfl, a, hs, by simp_all, id, by simp_all⟩

theorem counted_single (hc : Change K op v v' b) (hfair : Fair K op v) (h : Counted v n .single)
    (hf : follow K op v v' .single = some o') : Counted v' (n + b.toNat) o' := by
  obtain ⟨a, he, hs, hadopted, hn⟩ := h
  obtain ⟨rfl, a', hs', hadopted', -, hnone⟩ | ⟨-, hne, -⟩ | ⟨rfl, rfl, e, he', -, hclaimed, hh⟩ :=
    single_step hc hs hadopted hf
  · have hop : op ≠ .announce K := fun hop => by
      cases hs.symm.trans (hfair.announce hop)
    obtain ⟨hnone, hclaimed⟩ := hnone he hop
    exact ⟨a', hnone, hs', hadopted', Nat.le_trans (Nat.add_le_add_right hn _) hclaimed⟩
  · exact absurd he hne
  · rw [hclaimed] at hn
    exact ⟨e, he', hh, Nat.le_trans hn (Nat.zero_le _)⟩

/-- **One operation keeps the count on record.** -/
theorem counted_step (hc : Change K op v v' b) (hfair : Fair K op v) (h : Counted v n o)
    (hf : follow K op v v' o = some o') : Counted v' (n + b.toNat) o' := by
  cases o with
  | batch => exact counted_batch hc hfair h hf
  | moving => exact counted_moving hc h hf
  | single => exact counted_single hc hfair h hf

theorem counted_run : ∀ {ops : List Op} {s : State} {o : Owner} {n : Nat}, Counted (view K s) n o → Along (Fair K) K ops s →
    followRun K ops s o = some o' → n + claimCount K ops s ≤ 1
  | [], s, o, n, h, _, _ => h.le_one
  | op :: ops, s, o, n, h, hfair, hf => by
    obtain ⟨o₁, ho₁, hf⟩ := Option.bind_eq_some_iff.1 hf
    have hstep := counted_step (exec_change K op s) hfair.1 h ho₁
    have := counted_run hstep hfair.2 hf
    unfold claimCount
    omega

theorem counted_admits (h : Admits K op s o) : Counted (view K (exec op s).1) 0 o := by
  rcases h with ⟨rfl, hsome, hsingle, rfl⟩ | ⟨rfl, hh, he, rfl⟩
  · have hfree : ¬ ((s.batch.entries.lookup K).isSome ∨ (s.batch.handoffs.lookup K).isSome) := fun h => by
      rw [batchAnnounceTerminal, if_pos h] at hsome
      cases hsome
    simp only [not_or, Option.not_isSome_iff_eq_none] at hfree
    show Counted (view K (batchAnnounceTerminal K s).1) 0 .batch
    rw [view_announce hfree.1 hfree.2]
    exact ⟨_, rfl, hfree.2, Nat.zero_le _⟩
  · show Counted (view K (activateTerminalControl K s)) 0 .single
    rw [view_activate hh]
    refine ⟨_, he, rfl, fun h' hh' => ?_, Nat.zero_le _⟩
    cases hh.symm.trans hh'

/-- **At most one claim of an admission succeeds**, while the request has an owner and every operation is fair. -/
theorem one_terminal {ops : List Op} (hadm : Admits K op s o) (hfair : Along (Fair K) K ops (exec op s).1)
    (hlive : followRun K ops (exec op s).1 o = some o') : claimCount K ops (exec op s).1 ≤ 1 := by
  have := counted_run (counted_admits hadm) hfair hlive
  omega

/-- An announced request moves to the singleton, whose one claim on the wire succeeds. -/
theorem one_terminal_handed : ∃ o', followRun ⟨"r", 1⟩ [.handoff ⟨"r", 1⟩ 1, .adopt ⟨"r", 1⟩ 0, .claimWire none ⟨"r", 1⟩,
      .claim ⟨"r", 1⟩] (exec (.announce ⟨"r", 1⟩) {}).1 .batch = some o' ∧
    claimCount ⟨"r", 1⟩ [.handoff ⟨"r", 1⟩ 1, .adopt ⟨"r", 1⟩ 0, .claimWire none ⟨"r", 1⟩, .claim ⟨"r", 1⟩]
      (exec (.announce ⟨"r", 1⟩) {}).1 ≤ 1 := by
  have hlive : followRun ⟨"r", 1⟩ [.handoff ⟨"r", 1⟩ 1, .adopt ⟨"r", 1⟩ 0, .claimWire none ⟨"r", 1⟩, .claim ⟨"r", 1⟩]
      (exec (.announce ⟨"r", 1⟩) {}).1 .batch = some .single := by decide +kernel
  refine ⟨.single, hlive, one_terminal (.inl ⟨rfl, by decide +kernel, by decide +kernel, rfl⟩) ?_ hlive⟩
  refine ⟨⟨fun e _ he => ?_, nofun, nofun⟩, ⟨nofun, nofun, nofun⟩, ⟨nofun, nofun, nofun⟩,
    ⟨nofun, fun _ => by decide +kernel, nofun⟩, trivial⟩
  cases he
  rfl

/-- **A handoff forgets the claim of the entry it takes**: the lane's terminal is claimed, and then the singleton's. -/
theorem two_terminals : ∃ (K : AttemptKey) (op : Op) (o o' : Owner) (ops : List Op), Admits K op {} o ∧
    followRun K ops (exec op {}).1 o = some o' ∧ claimCount K ops (exec op {}).1 = 2 :=
  ⟨⟨"r", 1⟩, .announce ⟨"r", 1⟩, .batch, .single,
    [.batchClaim (some 1) ⟨"r", 1⟩, .handoff ⟨"r", 1⟩ 1, .adopt ⟨"r", 1⟩ 0, .claimWire none ⟨"r", 1⟩],
    .inl ⟨rfl, by decide +kernel, by decide +kernel, rfl⟩, by decide +kernel, by decide +kernel⟩

end Hipfire.Terminal

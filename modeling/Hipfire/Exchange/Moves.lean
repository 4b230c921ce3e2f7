import Hipfire.Exchange.Machine
/-!
# Moves — what one host step does, and what a rank keeps to on its own

`Move` lists the steps of a host thread.  A rank's counters follow its phase, its stream is sorted by exchange, a pull stands
behind the waits for every peer's `ready`, and a write after an exchange behind the waits for every peer's `done`.
-/
namespace Hipfire.Exchange

open List

/-- The steps of a host, from the calls, the phase, the counters `exchanged` and `waited`, and the arrivals. -/
inductive Move (ranks rank : Nat) (passed : Bool) : Host → Host → Option Effect → Prop
  | stay {h : Host} : Move ranks rank passed h h none
  | write {calls : List Call} {e w a : Nat} {rows : List Nat} :
      Move ranks rank passed ⟨.write rows :: calls, .idle, e, w, a⟩ ⟨calls, .idle, e, w, a⟩ (some (.write rows e))
  | nothingOwed {calls : List Call} {e w a : Nat} (hw : e = 0 ∨ w = e) :
      Move ranks rank passed ⟨.beforeDown :: calls, .idle, e, w, a⟩ ⟨calls, .idle, e, w, a⟩ none
  | beforeDown {calls : List Call} {e w a : Nat} (he : e ≠ 0) (hw : w ≠ e) :
      Move ranks rank passed ⟨.beforeDown :: calls, .idle, e, w, a⟩ ⟨calls, .doneWaits (peers ranks rank), e, w, a⟩ none
  | doneWait {calls : List Call} {e w a q : Nat} {rest : List Nat} (he : e ≠ 0) :
      Move ranks rank passed ⟨calls, .doneWaits (q :: rest), e, w, a⟩ ⟨calls, .doneWaits rest, e, w, a⟩
        (some (.wait q .done (parity (e - 1)) (e - 1)))
  | doneWaited {calls : List Call} {e w a : Nat} :
      Move ranks rank passed ⟨calls, .doneWaits [], e, w, a⟩ ⟨calls, .idle, e, e, a⟩ none
  | publish {calls : List Call} {e w a : Nat} {x : Layout} :
      Move ranks rank passed ⟨.exchange x :: calls, .idle, e, w, a⟩ ⟨calls, .arriveFirst x, e, w, a⟩
        (some (.record .ready (parity e) e))
  | arriveFirst {calls : List Call} {e w a : Nat} {x : Layout} :
      Move ranks rank passed ⟨calls, .arriveFirst x, e, w, a⟩ ⟨calls, .passFirst x, e, w, a + 1⟩ none
  | passFirst {calls : List Call} {e w a : Nat} {x : Layout} (hp : passed = true) :
      Move ranks rank passed ⟨calls, .passFirst x, e, w, a⟩ ⟨calls, .readyWaits x (peers ranks rank), e, w, a⟩ none
  | readyWait {calls : List Call} {e w a q : Nat} {x : Layout} {rest : List Nat} :
      Move ranks rank passed ⟨calls, .readyWaits x (q :: rest), e, w, a⟩ ⟨calls, .readyWaits x rest, e, w, a⟩
        (some (.wait q .ready (parity e) e))
  | pull {calls : List Call} {e w a : Nat} {x : Layout} :
      Move ranks rank passed ⟨calls, .readyWaits x [], e, w, a⟩ ⟨calls, .complete, e, w, a⟩ (some (.pull x e))
  | complete {calls : List Call} {e w a : Nat} :
      Move ranks rank passed ⟨calls, .complete, e, w, a⟩ ⟨calls, .arriveSecond, e, w, a⟩ (some (.record .done (parity e) e))
  | arriveSecond {calls : List Call} {e w a : Nat} :
      Move ranks rank passed ⟨calls, .arriveSecond, e, w, a⟩ ⟨calls, .passSecond, e, w, a + 1⟩ none
  | passSecond {calls : List Call} {e w a : Nat} (hp : passed = true) :
      Move ranks rank passed ⟨calls, .passSecond, e, w, a⟩ ⟨calls, .store, e, w, a⟩ none
  | store {calls : List Call} {e w a : Nat} :
      Move ranks rank passed ⟨calls, .store, e, w, a⟩ ⟨calls, .idle, e + 1, w, a⟩ none

variable {ranks rank : Nat} {passed : Bool} {xs : List Layout} {stream : List Work} {h h' : Host} {effect : Option Effect}

theorem pendingDoneParity_pos {e : Nat} (he : e ≠ 0) : pendingDoneParity e = some (parity (e - 1)) := if_neg he

/-- **Every host step is one of the moves.** -/
theorem advance_move (ranks rank : Nat) (passed : Bool) (h : Host) :
    Move ranks rank passed h (advance ranks rank passed h).1 (advance ranks rank passed h).2 := by
  obtain ⟨calls, phase, e, w, a⟩ := h
  cases phase with
  | idle =>
    cases calls with
    | nil => exact .stay
    | cons call calls =>
      cases call with
      | write rows => exact .write
      | exchange x => exact .publish
      | beforeDown =>
        by_cases he : e = 0
        · subst he
          exact .nothingOwed (.inl rfl)
        dsimp only [advance]
        rw [pendingDoneParity_pos he]
        dsimp only
        split
        · rename_i hw
          exact .nothingOwed (.inr hw)
        · rename_i hw
          exact .beforeDown he hw
  | doneWaits rest =>
    cases rest with
    | nil => exact .doneWaited
    | cons q rest =>
      by_cases he : e = 0
      · subst he
        exact .stay
      · dsimp only [advance]
        rw [pendingDoneParity_pos he]
        exact .doneWait he
  | arriveFirst x => exact .arriveFirst
  | passFirst x =>
    dsimp only [advance]
    split
    · rename_i hp
      exact .passFirst hp
    · exact .stay
  | readyWaits x rest =>
    cases rest with
    | nil => exact .pull
    | cons q rest => exact .readyWait
  | complete => exact .complete
  | arriveSecond => exact .arriveSecond
  | passSecond =>
    dsimp only [advance]
    split
    · rename_i hp
      exact .passSecond hp
    · exact .stay
  | store => exact .store

/-! ## Counters -/

/-- The arrivals at the barrier that belong to the phase. -/
def Host.arrivals (h : Host) : Nat :=
  match h.phase with
  | .idle | .doneWaits _ | .arriveFirst _ => 2 * h.exchanged
  | .passFirst _ | .readyWaits _ _ | .complete | .arriveSecond => 2 * h.exchanged + 1
  | .passSecond | .store => 2 * h.exchanged + 2

/-- The barriers the host has passed. -/
def Host.passes (h : Host) : Nat :=
  match h.phase with
  | .idle | .doneWaits _ | .arriveFirst _ | .passFirst _ => 2 * h.exchanged
  | .readyWaits _ _ | .complete | .arriveSecond | .passSecond => 2 * h.exchanged + 1
  | .store => 2 * h.exchanged + 2

/-- The records of each kind made so far. -/
def Host.records (h : Host) : Kind → Nat
  | .ready => match h.phase with
    | .idle | .doneWaits _ => h.exchanged
    | _ => h.exchanged + 1
  | .done => match h.phase with
    | .arriveSecond | .passSecond | .store => h.exchanged + 1
    | _ => h.exchanged

theorem Move.arrivals_le (m : Move ranks rank passed h h' effect) : h.arrivals ≤ h'.arrivals := by
  cases m <;> simp only [Host.arrivals] <;> omega

/-- A barrier is passed only when every rank has come to it. -/
theorem Move.passes (m : Move ranks rank passed h h' effect) :
    h'.passes = h.passes ∨ passed = true ∧ h'.passes = h.arrivals := by
  cases m with
  | passFirst hp | passSecond hp => exact .inr ⟨hp, rfl⟩
  | _ => exact .inl rfl

theorem Move.records (m : Move ranks rank passed h h' effect) :
    (∃ kind, effect = some (.record kind (parity (h.records kind)) (h.records kind)) ∧
      h'.records kind = h.records kind + 1 ∧ ∀ k ≠ kind, h'.records k = h.records k) ∨
    (∀ kind slot k, effect ≠ some (.record kind slot k)) ∧ h'.records = h.records := by
  cases m with
  | publish =>
    refine .inl ⟨.ready, rfl, rfl, fun k hk => ?_⟩
    cases k with
    | ready => exact absurd rfl hk
    | done => rfl
  | complete =>
    refine .inl ⟨.done, rfl, rfl, fun k hk => ?_⟩
    cases k with
    | ready => rfl
    | done => exact absurd rfl hk
  | _ =>
    refine .inr ⟨nofun, funext fun k => ?_⟩
    cases k <;> rfl

variable {kind : Kind} {q k : Nat}

/-- What a step waits for: the peers' `ready` of its exchange behind the first barrier, or their `done` of the last one. -/
theorem Move.wait {slot : Nat} (m : Move ranks rank passed h h' (some (.wait q kind slot k))) :
    slot = parity k ∧ (kind = .ready ∧ h.arrivals = 2 * k + 1 ∧ h.passes = 2 * k + 1 ∨
      kind = .done ∧ h.arrivals = 2 * k + 2 ∧ h.passes = 2 * k + 2) := by
  cases m with
  | doneWait he =>
    refine ⟨rfl, .inr ⟨rfl, ?_, ?_⟩⟩ <;> simp only [Host.arrivals, Host.passes] <;> omega
  | readyWait => exact ⟨rfl, .inl ⟨rfl, rfl, rfl⟩⟩

/-! ## What a rank keeps to -/

/-- The place of a piece of work in the sequence of exchanges. -/
def Work.key : Work → Nat
  | .write _ epoch => 4 * epoch
  | .record .ready k => 4 * k + 1
  | .record .done k => 4 * k + 3
  | .wait _ .ready k _ => 4 * k + 2
  | .wait _ .done k _ => 4 * (k + 1)
  | .pull _ k => 4 * k + 2

def Host.level (h : Host) : Nat :=
  match h.phase with
  | .idle | .doneWaits _ => 4 * h.exchanged
  | .arriveFirst _ | .passFirst _ => 4 * h.exchanged + 1
  | .readyWaits _ _ | .complete => 4 * h.exchanged + 2
  | .arriveSecond | .passSecond | .store => 4 * h.exchanged + 3

/-- A wait for the peer's event is enqueued. -/
def Waits (stream : List Work) (q : Nat) (kind : Kind) (k : Nat) : Prop := ∃ bound, .wait q kind k bound ∈ stream

/-- Whether a writer owes `before_down` now. -/
def Host.owed (h : Host) : Bool :=
  match h.phase with
  | .idle => h.waited ≠ h.exchanged
  | .doneWaits _ => false
  | _ => true

/-- The waits that are enqueued, and the layout of the exchange, by phase. -/
def Covered (ranks rank : Nat) (xs : List Layout) (h : Host) (stream : List Work) : Prop :=
  match h.phase with
  | .idle => h.waited = h.exchanged → h.exchanged ≠ 0 → ∀ q ∈ peers ranks rank, Waits stream q .done (h.exchanged - 1)
  | .doneWaits rest => (∀ q ∈ rest, q ∈ peers ranks rank) ∧
      ∀ q ∈ peers ranks rank, q ∉ rest → Waits stream q .done (h.exchanged - 1)
  | .arriveFirst x | .passFirst x => xs[h.exchanged]? = some x
  | .readyWaits x rest => xs[h.exchanged]? = some x ∧ (∀ q ∈ rest, q ∈ peers ranks rank) ∧
      ∀ q ∈ peers ranks rank, q ∉ rest → Waits stream q .ready h.exchanged
  | _ => True

/-- The counters and the rest of the program, by phase. -/
structure HostOk (ranks rank : Nat) (xs : List Layout) (h : Host) (stream : List Work) : Prop where
  arrived : h.arrived = h.arrivals
  waited : h.waited ≤ h.exchanged
  remaining : layouts h.calls = xs.drop (h.records .ready)
  contract : Contract h.owed h.calls
  covered : Covered ranks rank xs h stream

/-- What stands before a piece of work on its stream. -/
def Preceded (ranks rank : Nat) (xs : List Layout) (before : List Work) : Work → Prop
  | .pull x k => xs[k]? = some x ∧ ∀ q ∈ peers ranks rank, Waits before q .ready k
  | .write _ (epoch + 1) => ∀ q ∈ peers ranks rank, Waits before q .done epoch
  | .wait q _ _ _ => q ∈ peers ranks rank
  | _ => True

theorem Waits.append (h : Waits stream q kind k) (more : List Work) : Waits (stream ++ more) q kind k := by
  obtain ⟨bound, hb⟩ := h
  exact ⟨bound, mem_append_left _ hb⟩

theorem Waits.last (stream : List Work) (q : Nat) (kind : Kind) (k : Nat) (bound : Option Nat) :
    Waits (stream ++ [.wait q kind k bound]) q kind k := ⟨bound, mem_append_right _ (mem_singleton_self _)⟩

/-- The waits of a loop over the peers, once the next one is enqueued. -/
theorem waits_cons {rest : List Nat} {bound : Option Nat}
    (h : ∀ q' ∈ peers ranks rank, q' ∉ q :: rest → Waits stream q' kind k) :
    ∀ q' ∈ peers ranks rank, q' ∉ rest → Waits (stream ++ [.wait q kind k bound]) q' kind k := by
  intro q' hq' hrest
  by_cases hqq : q' = q
  · subst hqq
    exact Waits.last ..
  · exact (h q' hq' (by simp [hqq, hrest])).append _

/-- **A step without work keeps a rank's host in order.** -/
theorem HostOk.move_none (ok : HostOk ranks rank xs h stream) (m : Move ranks rank passed h h' none) :
    HostOk ranks rank xs h' stream ∧ h.level ≤ h'.level := by
  obtain ⟨harr, hwle, hrem, hcon, hcov⟩ := ok
  cases m with
  | stay => exact ⟨⟨harr, hwle, hrem, hcon, hcov⟩, Nat.le_refl _⟩
  | @nothingOwed calls e w a hw =>
    refine ⟨⟨harr, hwle, hrem, ?_, hcov⟩, Nat.le_refl _⟩
    have hsame : w = e := by
      rcases hw with rfl | hw
      · exact Nat.eq_zero_of_le_zero hwle
      · exact hw
    have hnext : Contract false calls := hcon
    simpa [Host.owed, hsame] using hnext
  | beforeDown he hw =>
    exact ⟨⟨harr, hwle, hrem, hcon, fun q hq => hq, fun q hq hnot => absurd hq hnot⟩, Nat.le_refl _⟩
  | doneWaited =>
    refine ⟨⟨harr, Nat.le_refl _, hrem, ?_, fun _ _ q hq => hcov.2 q hq not_mem_nil⟩, Nat.le_refl _⟩
    simpa [Host.owed] using hcon
  | arriveFirst =>
    exact ⟨⟨congrArg (· + 1) harr, hwle, hrem, hcon, hcov⟩, Nat.le_refl _⟩
  | passFirst =>
    exact ⟨⟨harr, hwle, hrem, hcon, hcov, fun q hq => hq, fun q hq hnot => absurd hq hnot⟩, Nat.le_succ _⟩
  | arriveSecond =>
    exact ⟨⟨congrArg (· + 1) harr, hwle, hrem, hcon, trivial⟩, Nat.le_refl _⟩
  | passSecond =>
    exact ⟨⟨harr, hwle, hrem, hcon, trivial⟩, Nat.le_refl _⟩
  | @store calls e w a =>
    have hne : w ≠ e + 1 := Nat.ne_of_lt (Nat.lt_succ_of_le hwle)
    refine ⟨⟨harr, Nat.le_succ_of_le hwle, hrem, ?_, fun heq => absurd heq hne⟩, ?_⟩
    · simpa [Host.owed, hne] using hcon
    · exact Nat.le_succ _

theorem drop_eq_cons {α : Type} {x : α} {l xs : List α} {n : Nat} (h : x :: l = xs.drop n) :
    xs[n]? = some x ∧ l = xs.drop (n + 1) := by
  constructor
  · have := congrArg (·[0]?) h
    simpa [getElem?_drop] using this.symm
  · have := congrArg tail h
    simpa [tail_drop] using this

/-- **A step that enqueues work keeps the host in order**, and the work stands where it belongs. -/
theorem HostOk.move_some {eff : Effect} (ok : HostOk ranks rank xs h stream) (m : Move ranks rank passed h h' (some eff))
    (s : State) : HostOk ranks rank xs h' (stream ++ [eff.work s]) ∧ h.level ≤ (eff.work s).key ∧
      (eff.work s).key ≤ h'.level ∧ Preceded ranks rank xs stream (eff.work s) := by
  obtain ⟨harr, hwle, hrem, hcon, hcov⟩ := ok
  cases m with
  | @write calls e w a rows =>
    have howed : w = e := by simpa [Host.owed] using hcon.1
    refine ⟨⟨harr, hwle, hrem, hcon.2, fun hw he q hq => (hcov hw he q hq).append _⟩, Nat.le_refl _, Nat.le_refl _, ?_⟩
    cases e with
    | zero => trivial
    | succ e => exact hcov howed (Nat.succ_ne_zero e)
  | @doneWait calls e w a q rest he =>
    have hkey : 4 * (e - 1 + 1) = 4 * e := by omega
    refine ⟨⟨harr, hwle, hrem, hcon, (forall_mem_cons.1 hcov.1).2, waits_cons hcov.2⟩,
      Nat.le_of_eq hkey.symm, Nat.le_of_eq hkey, hcov.1 _ mem_cons_self⟩
  | publish =>
    obtain ⟨hx, htail⟩ := drop_eq_cons hrem
    exact ⟨⟨harr, hwle, htail, hcon, hx⟩, Nat.le_succ _, Nat.le_refl _, trivial⟩
  | readyWait =>
    exact ⟨⟨harr, hwle, hrem, hcon, hcov.1, (forall_mem_cons.1 hcov.2.1).2, waits_cons hcov.2.2⟩,
      Nat.le_refl _, Nat.le_refl _, hcov.2.1 _ mem_cons_self⟩
  | pull =>
    exact ⟨⟨harr, hwle, hrem, hcon, trivial⟩, Nat.le_refl _, Nat.le_refl _, hcov.1,
      fun q hq => hcov.2.2 q hq not_mem_nil⟩
  | complete =>
    exact ⟨⟨harr, hwle, hrem, hcon, trivial⟩, Nat.le_succ _, Nat.le_refl _, trivial⟩

end Hipfire.Exchange

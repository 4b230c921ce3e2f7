import Hipfire.Base.Run
/-!
# Barrier — the spin barrier of the row gather

`SpinBarrier` of `ep_row_gather.rs`, one atomic operation of a thread at a time.  Each round every party adds itself to
`arrived`; the last one clears the count and moves the generation on, and the others spin until they see it moved.
-/
namespace Hipfire.Gather

open List Function

/-- The next atomic operation of a thread; a generation is the one it loaded when its call began. -/
inductive Pc
  | outside
  | checkAborted
  | loadGeneration
  | arrive (generation : Nat)
  | resetArrived
  | nextGeneration
  | spinGeneration (generation spins : Nat)
  | spinAborted (generation spins : Nat)
  | spinClock (generation spins : Nat)
  | abortTimeout
  deriving DecidableEq, Repr

structure SpinBarrier where
  parties : Nat
  arrived : Nat
  generation : Nat
  aborted : Bool
  deriving DecidableEq, Repr

/-- A party, with its calls of `wait` and those in which it arrived counted. -/
structure Thread where
  pc : Pc
  waits : Nat
  arrivals : Nat
  deriving DecidableEq, Repr

/-- What a thread did, in which of its calls. -/
inductive Event
  | called (wait : Nat)
  | arrived (wait : Nat)
  | returned (wait : Nat) (result : Except String Unit)
  | aborted

def SpinBarrier.new (parties : Nat) : SpinBarrier := ⟨parties, 0, 0, false⟩

def SpinBarrier.abort (b : SpinBarrier) : SpinBarrier := { b with aborted := true }

def Thread.goto (t : Thread) (b : SpinBarrier) (pc : Pc) : SpinBarrier × Thread × List Event := (b, { t with pc }, [])

def Thread.ret (t : Thread) (b : SpinBarrier) (result : Except String Unit) : SpinBarrier × Thread × List Event :=
  (b, { t with pc := .outside }, [.returned t.waits result])

def spinLimit : Nat := 2048

@[grind =]
def abortedError : Except String Unit := .error "ep_row_gather barrier aborted"

/-- One atomic operation of `wait`; `elapsed` is what the clock says if it is asked. -/
def SpinBarrier.wait (b : SpinBarrier) (t : Thread) (elapsed : Bool) : SpinBarrier × Thread × List Event :=
  match t.pc with
  | .outside => (b, { t with pc := .checkAborted, waits := t.waits + 1 }, [.called (t.waits + 1)])
  | .checkAborted => if b.aborted then t.ret b abortedError else t.goto b .loadGeneration
  | .loadGeneration => t.goto b (.arrive b.generation)
  | .arrive generation =>
    ({ b with arrived := b.arrived + 1 },
      { t with
        pc := if b.arrived + 1 = b.parties then .resetArrived else .spinGeneration generation 0
        arrivals := t.arrivals + 1 },
      [.arrived t.waits])
  | .resetArrived => t.goto { b with arrived := 0 } .nextGeneration
  | .nextGeneration => t.ret { b with generation := b.generation + 1 } (.ok ())
  | .spinGeneration generation spins =>
    if b.generation ≠ generation then t.ret b (.ok ()) else t.goto b (.spinAborted generation spins)
  | .spinAborted generation spins =>
    if b.aborted then t.ret b abortedError else t.goto b (.spinClock generation spins)
  | .spinClock generation spins =>
    if spins < spinLimit then t.goto b (.spinGeneration generation (spins + 1))
    else if elapsed then t.goto b .abortTimeout
    else t.goto b (.spinGeneration generation spins)
  | .abortTimeout =>
    (b.abort, { t with pc := .outside }, [.returned t.waits (.error "ep_row_gather barrier timed out"), .aborted])

variable {n : Nat}

/-- The barrier, its threads, and what they did, the latest first. -/
structure State (n : Nat) where
  barrier : SpinBarrier
  threads : Fin n → Thread
  log : List (Fin n × Event)

/-- A step of some thread, or an abort by it outside its calls. -/
inductive Act (n : Nat)
  | wait (party : Fin n) (elapsed : Bool)
  | abort (party : Fin n)

def act : Act n → State n → State n
  | .wait p elapsed, s =>
    let (barrier, thread, events) := s.barrier.wait (s.threads p) elapsed
    ⟨barrier, update s.threads p thread, events.map (p, ·) ++ s.log⟩
  | .abort p, s => { s with barrier := s.barrier.abort, log := (p, .aborted) :: s.log }

/-- The state after some steps. -/
def steps (acts : List (Act n)) : State n := runAll act acts ⟨.new n, fun _ => ⟨.outside, 0, 0⟩, []⟩

/-- The generation a spinning thread waits to see changed. -/
def Pc.loaded : Pc → Option Nat
  | .spinGeneration generation _ | .spinAborted generation _ | .spinClock generation _ => some generation
  | _ => none

/-- The thread is in a call in which it has not arrived yet. -/
def Pc.Entering : Pc → Prop
  | .checkAborted | .loadGeneration | .arrive _ => True
  | _ => False

/-- The thread is the last of its round, between its arrival and its return. -/
@[grind]
def Pc.Releasing (pc : Pc) : Prop := pc = .resetArrived ∨ pc = .nextGeneration

/-! ## Rounds -/

variable {s s' : State n} {b b' : SpinBarrier} {t : Thread} {p q : Fin n} {pc : Pc} {round round' : Nat}

/-- Where a thread can stand in a round.  After an error it never comes past the first check again. -/
@[grind]
def Stands (round : Nat) (b : SpinBarrier) (t : Thread) : Prop :=
  match t.pc with
  | .outside => b.aborted = true ∨ round = b.generation ∧ t.arrivals = round ∧ t.waits = round
  | .checkAborted => b.aborted = true ∨ round = b.generation ∧ t.arrivals = round ∧ t.waits = round + 1
  | .loadGeneration => round = b.generation ∧ t.arrivals = round ∧ t.waits = round + 1
  | .arrive generation => round = b.generation ∧ t.arrivals = round ∧ t.waits = round + 1 ∧ generation = round
  | .resetArrived => round = b.generation ∧ b.arrived = b.parties ∧ t.waits = round + 1
  | .nextGeneration => round = b.generation + 1 ∧ t.arrivals = round ∧ t.waits = round
  | .spinGeneration generation _ | .spinAborted generation _ | .spinClock generation _ =>
    t.arrivals = generation + 1 ∧ t.waits = generation + 1 ∧ generation ≤ b.generation
  | .abortTimeout => True

/-- **The invariant**: `round` rounds are over, up to the last party's step of the generation. -/
structure Inv (round : Nat) (s : State n) : Prop where
  parties : s.barrier.parties = n
  rounds : round = s.barrier.generation ∨ round = s.barrier.generation + 1 ∧ ∃ q, (s.threads q).pc = .nextGeneration
  seats : ∀ p, round ≤ (s.threads p).arrivals ∧ (s.threads p).arrivals ≤ round + 1
  count : s.barrier.arrived + n * round = ∑ p, (s.threads p).arrivals
  stands : ∀ p, Stands round s.barrier (s.threads p)
  one : ∀ p q, (s.threads p).pc.Releasing → (s.threads q).pc.Releasing → p = q
  full : s.barrier.arrived = n → 0 < n → ∃ q, (s.threads q).pc = .resetArrived

theorem sum_seats (round : Nat) : ∑ _p : Fin n, (round + 1) = n * round + n := by
  simp [Nat.mul_succ]

/-- The count is full exactly when every party has arrived in the round. -/
theorem Inv.arrived_eq (inv : Inv round s) : s.barrier.arrived ≤ n ∧
    (s.barrier.arrived = n ↔ ∀ p, (s.threads p).arrivals = round + 1) := by
  have hle := Finset.sum_le_sum fun p (_ : p ∈ Finset.univ) => (inv.seats p).2
  have hall := Finset.sum_eq_sum_iff_of_le fun p (_ : p ∈ Finset.univ) => (inv.seats p).2
  rw [sum_seats, ← inv.count] at hle hall
  refine ⟨by omega, fun h p => hall.1 (by omega) p (Finset.mem_univ p), fun h => ?_⟩
  have := hall.2 fun p _ => h p
  omega

theorem sum_update (a : Fin n → Thread) (p : Fin n) (t : Thread) :
    ∑ q, (update a p t q).arrivals + (a p).arrivals = ∑ q, (a q).arrivals + t.arrivals := by
  rw [← Finset.add_sum_erase _ _ (Finset.mem_univ p), ← Finset.add_sum_erase _ (fun q => (a q).arrivals) (Finset.mem_univ p),
    update_self, Finset.sum_congr rfl fun q hq => by rw [update_of_ne (Finset.ne_of_mem_erase hq)]]
  omega

/-- What a step of one thread does that changes neither the count nor the generation. -/
theorem Stands.wait (h : Stands round b t) (hgen : b.generation ≤ round) (hseat : round ≤ t.arrivals)
    (harrive : ∀ generation, t.pc ≠ .arrive generation) (hrel : ¬t.pc.Releasing) (elapsed : Bool) :
    ((b.wait t elapsed).1 = b ∨ (b.wait t elapsed).1 = b.abort) ∧ (b.wait t elapsed).2.1.arrivals = t.arrivals ∧
      ¬(b.wait t elapsed).2.1.pc.Releasing ∧ Stands round (b.wait t elapsed).1 (b.wait t elapsed).2.1 := by
  unfold SpinBarrier.wait Thread.ret Thread.goto SpinBarrier.abort
  cases hpc : t.pc with
  | arrive generation => exact absurd hpc (harrive generation)
  | resetArrived => exact absurd (.inl hpc) hrel
  | nextGeneration => exact absurd (.inr hpc) hrel
  | _ => grind

theorem Inv.moved (inv : Inv round s) {t' : Thread} (hb : b' = s.barrier ∨ b' = s.barrier.abort)
    (harr : t'.arrivals = (s.threads p).arrivals) (hold : ¬(s.threads p).pc.Releasing) (hnew : ¬t'.pc.Releasing)
    (hself : Stands round b' t') (log : List (Fin n × Event)) : Inv round ⟨b', update s.threads p t', log⟩ := by
  have hsum := sum_update s.threads p t'
  unfold SpinBarrier.abort at hb
  obtain ⟨hn, hrounds, hseats, hcount, hstands, hone, hlast⟩ := inv
  constructor <;> simp only [update_apply] at hsum ⊢ <;> grind

/-- **A party arrives.**  Nobody is releasing then, since the count is not full. -/
theorem Inv.arrive (inv : Inv round s) {generation : Nat} (hpc : (s.threads p).pc = .arrive generation) (elapsed : Bool) :
    Inv round (act (.wait p elapsed) s) := by
  have hfull := inv.arrived_eq
  obtain ⟨hn, hrounds, hseats, hcount, hstands, hone, hlast⟩ := inv
  have hst := hstands p
  have hidle : ∀ q, ¬(s.threads q).pc.Releasing := by grind
  unfold act SpinBarrier.wait
  simp only [hpc]
  generalize ht : Thread.mk _ _ _ = t'
  have hsum := sum_update s.threads p t'
  constructor <;> simp only [update_apply] at hsum ⊢ <;> grind

/-- **The last party of a round ends it**, then moves the generation on; everybody else has arrived and spins or has failed. -/
theorem Inv.release (inv : Inv round s) (hpc : (s.threads p).pc.Releasing) (elapsed : Bool) :
    ∃ round', Inv round' (act (.wait p elapsed) s) := by
  have hfull := inv.arrived_eq
  obtain ⟨hn, hrounds, hseats, hcount, hstands, hone, hlast⟩ := inv
  have hst := hstands p
  have hsum := sum_update s.threads p
  have hidle : ∀ q ≠ p, ¬(s.threads q).pc.Releasing := fun q hqp hq => hqp (hone q p hq hpc)
  unfold act SpinBarrier.wait Thread.ret Thread.goto
  rcases hpc with hpc | hpc <;> simp only [hpc]
  · refine ⟨round + 1, ?_⟩
    constructor <;> simp only [update_apply] <;> grind
  · refine ⟨round, ?_⟩
    constructor <;> simp only [update_apply] <;> grind

/-- **Every step keeps the invariant.** -/
theorem Inv.kept (inv : Inv round s) : ∀ a : Act n, ∃ round', Inv round' (act a s)
  | .abort p => by
    refine ⟨round, inv.parties, inv.rounds, inv.seats, inv.count, fun q => ?_, inv.one, inv.full⟩
    have hst := inv.stands q
    unfold act SpinBarrier.abort
    grind
  | .wait p elapsed => by
    by_cases harrive : ∃ generation, (s.threads p).pc = .arrive generation
    · obtain ⟨generation, hpc⟩ := harrive
      exact ⟨round, inv.arrive hpc elapsed⟩
    by_cases hrel : (s.threads p).pc.Releasing
    · exact inv.release hrel elapsed
    · have hgen : s.barrier.generation ≤ round := by grind [inv.rounds]
      obtain ⟨hb, harr, hnew, hself⟩ := (inv.stands p).wait hgen (inv.seats p).1 (not_exists.1 harrive) hrel elapsed
      exact ⟨round, inv.moved hb harr hrel hnew hself _⟩

/-! ## The log -/

/-- What the log says of the threads. -/
structure Logged (s : State n) : Prop where
  arrived : ∀ p m, (p, .arrived m) ∈ s.log ↔ 0 < m ∧ m ≤ (s.threads p).arrivals
  ok : ∀ p m older, (p, .returned m (.ok ())) :: older <:+ s.log → ∀ q, (q, .arrived m) ∈ older
  returned : ∀ p m r, (p, .returned m r) ∈ s.log → m ≤ (s.threads p).waits

theorem Logged.kept (h : Logged s) (inv : Inv round s) (a : Act n) : Logged (act a s) := by
  obtain ⟨harr, hok, hret⟩ := h
  cases a with
  | abort p =>
    unfold act
    constructor <;> simp only [suffix_cons_iff] <;> grind
  | wait p elapsed =>
    have hst := inv.stands p
    have hseats := inv.seats
    have hgen : s.barrier.generation ≤ round := by grind [inv.rounds]
    unfold act SpinBarrier.wait Thread.ret Thread.goto
    -- a call returns `ok` only in a later generation than the one it loaded, and all seats are past that one
    cases hpc : (s.threads p).pc <;> simp only [hpc] <;> (try split_ifs) <;> constructor <;>
      simp only [map_cons, map_nil, cons_append, nil_append, update_apply, suffix_cons_iff] <;> grind

/-- The `m`-th call of a thread, begun after an abort, has returned the error or is about to. -/
structure Late (p : Fin n) (m : Nat) (s : State n) : Prop where
  aborted : s.barrier.aborted = true
  fails : (p, .returned m (.ok ())) ∉ s.log
  place : (s.threads p).pc = .checkAborted ∧ (s.threads p).waits = m ∨ (p, .returned m abortedError) ∈ s.log ∧
    ((s.threads p).waits = m ∧ (s.threads p).pc = .outside ∨ m < (s.threads p).waits)

theorem Late.kept {m : Nat} (h : Late p m s) (a : Act n) : Late p m (act a s) := by
  obtain ⟨hab, hok, hplace⟩ := h
  unfold act SpinBarrier.wait Thread.ret Thread.goto SpinBarrier.abort
  cases a <;> constructor <;> simp only [update_apply] <;> grind

theorem inv_steps (acts : List (Act n)) : ∃ round, Inv round (steps acts) ∧ Logged (steps acts) := by
  refine runAll_history (P := fun _ s => ∃ round, Inv round s ∧ Logged s) ⟨0, ?_, ?_⟩ (fun _ a h => ?_) acts
  · constructor <;> simp [Stands, Pc.Releasing, SpinBarrier.new]
    omega
  · constructor <;> simp [Nat.pos_iff_ne_zero]
  · obtain ⟨round, inv, hlog⟩ := h
    obtain ⟨round', inv'⟩ := inv.kept a
    exact ⟨round', inv', hlog.kept inv a⟩

/-- **A spinning thread that looks after the generation moved returns.** -/
theorem returns_of_moved {generation : Nat} (hpc : (s.threads p).pc.loaded = some generation)
    (hgen : s.barrier.generation ≠ generation) (hab : s.barrier.aborted = false) :
    ∃ k ≤ 3, (p, .returned (s.threads p).waits (.ok ())) ∈ (runAll act (replicate k (.wait p false)) s).log := by
  cases h : (s.threads p).pc with
  | spinGeneration g spins =>
    cases h ▸ hpc
    exact ⟨1, by decide, by simp [runAll, act, SpinBarrier.wait, Thread.ret, h, hgen]⟩
  | spinAborted g spins =>
    cases h ▸ hpc
    refine ⟨3, by decide, ?_⟩
    by_cases hs : spins < spinLimit <;>
      simp [runAll, act, SpinBarrier.wait, Thread.ret, Thread.goto, h, hgen, hab, hs]
  | spinClock g spins =>
    cases h ▸ hpc
    refine ⟨2, by decide, ?_⟩
    by_cases hs : spins < spinLimit <;> simp [runAll, act, SpinBarrier.wait, Thread.ret, Thread.goto, h, hgen, hs]
  | _ => exact absurd (h ▸ hpc) nofun

/-- **A party that is not stopped arrives.** -/
theorem arrives_of_entering (hpc : (s.threads p).pc.Entering) (hab : s.barrier.aborted = false) :
    ∃ k ≤ 3, (p, .arrived (s.threads p).waits) ∈ (runAll act (replicate k (.wait p false)) s).log := by
  cases h : (s.threads p).pc with
  | checkAborted => exact ⟨3, le_rfl, by simp [runAll, act, SpinBarrier.wait, Thread.goto, h, hab]⟩
  | loadGeneration => exact ⟨2, by decide, by simp [runAll, act, SpinBarrier.wait, Thread.goto, h]⟩
  | arrive generation => exact ⟨1, by decide, by simp [runAll, act, SpinBarrier.wait, h]⟩
  | _ =>
    rw [h] at hpc
    cases hpc

/-- **When all have arrived, the last of them moves the generation.** -/
theorem Inv.moves (inv : Inv round s) (hfull : ∀ q, s.barrier.generation < (s.threads q).arrivals) (p : Fin n) :
    ∃ q, (s.threads q).pc.Releasing ∧ ∃ k ≤ 2,
      (runAll act (replicate k (.wait q false)) s).barrier.generation = s.barrier.generation + 1 := by
  rcases inv.rounds with hround | ⟨-, q, hq⟩
  · have hall : s.barrier.arrived = n := inv.arrived_eq.2.2 fun q => by
      have := hfull q
      have := (inv.seats q).2
      omega
    obtain ⟨q, hq⟩ := inv.full hall p.pos
    exact ⟨q, .inl hq, 2, le_rfl, by simp [runAll, act, SpinBarrier.wait, Thread.ret, Thread.goto, hq]⟩
  · exact ⟨q, .inr hq, 1, by decide, by simp [runAll, act, SpinBarrier.wait, Thread.ret, hq]⟩

/-- **The spin barrier is a barrier.**  In every interleaving: a party's `m`-th call returns `ok` only after every party
arrived in its own `m`-th call; the count stays within the parties; three steps of its own let a party that is not stopped
arrive; a spinning party is never lapped, and once all have arrived, two steps of the party that ends the round move the
generation and three of its own let it return; and a call begun after an abort returns the error. -/
theorem spin_barrier_is_barrier (acts : List (Act n)) :
    (∀ p m older, (p, .returned m (.ok ())) :: older <:+ (steps acts).log → ∀ q, (q, .arrived m) ∈ older) ∧
    (steps acts).barrier.arrived ≤ n ∧
    (∀ p, ((steps acts).threads p).pc.Entering → (steps acts).barrier.aborted = false → ∃ k ≤ 3,
      (p, .arrived ((steps acts).threads p).waits) ∈ (runAll act (replicate k (.wait p false)) (steps acts)).log) ∧
    (∀ p generation, ((steps acts).threads p).pc.loaded = some generation →
      ((steps acts).threads p).waits = generation + 1 ∧ generation ≤ (steps acts).barrier.generation ∧
      (steps acts).barrier.generation ≤ generation + 1 ∧
      ((∀ q, (q, .arrived (generation + 1)) ∈ (steps acts).log) → (steps acts).barrier.generation = generation + 1 ∨
        ∃ q, ((steps acts).threads q).pc.Releasing ∧ ∃ k ≤ 2,
          (runAll act (replicate k (.wait q false)) (steps acts)).barrier.generation = generation + 1) ∧
      ((steps acts).barrier.generation ≠ generation → (steps acts).barrier.aborted = false → ∃ k ≤ 3,
        (p, .returned (generation + 1) (.ok ())) ∈ (runAll act (replicate k (.wait p false)) (steps acts)).log)) ∧
    ∀ p elapsed later, (steps acts).barrier.aborted = true → ((steps acts).threads p).pc = .outside →
      Late p (((steps acts).threads p).waits + 1) (steps (acts ++ .wait p elapsed :: later)) := by
  obtain ⟨round, inv, hlog⟩ := inv_steps acts
  refine ⟨hlog.ok, inv.arrived_eq.1, fun p => arrives_of_entering, fun p generation hpc => ?_,
    fun p elapsed later hab hpc => ?_⟩
  · have hst : ((steps acts).threads p).arrivals = generation + 1 ∧ ((steps acts).threads p).waits = generation + 1 ∧
        generation ≤ (steps acts).barrier.generation := by
      have := inv.stands p
      unfold Stands at this
      unfold Pc.loaded at hpc
      grind
    have hle : (steps acts).barrier.generation ≤ generation + 1 := by grind [inv.rounds, inv.seats p]
    refine ⟨hst.2.1, hst.2.2, hle, fun hall => ?_, fun hgen hab => hst.2.1 ▸ returns_of_moved hpc hgen hab⟩
    rcases Nat.lt_or_eq_of_le hst.2.2 with hlt | heq
    · exact .inl (Nat.le_antisymm hle hlt)
    · subst heq
      exact .inr <| inv.moves (fun q => ((hlog.arrived q _).1 (hall q)).2) p
  · unfold steps
    rw [runAll_append]
    refine runAll_history (P := fun _ s => Late p _ s) ?_ (fun _ a h => h.kept a) later
    have hnew : (p, .returned (((steps acts).threads p).waits + 1) (.ok ())) ∉ (steps acts).log := fun h =>
      absurd (hlog.returned _ _ _ h) (Nat.not_succ_le_self _)
    constructor <;> simp [steps, act, SpinBarrier.wait] at hab hpc hnew ⊢ <;> simp [hpc, hab, hnew]

end Hipfire.Gather

import Mathlib
/-!
# Run — a step function over a list of inputs

`runSteps` folds a step that returns an output, `runAll` one that only moves the state.  `runSteps_outputs` and
`runAll_inv` are the rules the run theorems use: what one step's output satisfies, every output of the run satisfies; and an
invariant of one step that meets a condition is an invariant of every run along which the condition holds.
`runAll_history` is for invariants that also read the steps taken so far, `runAll_reorder` for runs of the same steps in
another order.
-/
namespace Hipfire

universe u v w
variable {σ : Type u} {ι : Type v} {ω : Type w}

/-- The state a run ends in and the output of every step, in order. -/
def runSteps (step : σ → ι → σ × ω) : σ → List ι → σ × List ω
  | s, [] => (s, [])
  | s, i :: is =>
    let r := step s i
    let t := runSteps step r.1 is
    (t.1, r.2 :: t.2)

theorem runSteps_cons (step : σ → ι → σ × ω) (s : σ) (i : ι) (is : List ι) : runSteps step s (i :: is) =
      ((runSteps step (step s i).1 is).1, (step s i).2 :: (runSteps step (step s i).1 is).2) := rfl

theorem runSteps_append (step : σ → ι → σ × ω) : ∀ (is js : List ι) (s : σ), runSteps step s (is ++ js) =
    ((runSteps step (runSteps step s is).1 js).1, (runSteps step s is).2 ++ (runSteps step (runSteps step s is).1 js).2)
  | [], _, _ => rfl
  | i :: is, js, s => by
    rw [List.cons_append, runSteps_cons, runSteps_append step is js, runSteps_cons]
    rfl

/-- **Every output of a run is the output of one step from a state that satisfies the invariant.** -/
theorem runSteps_outputs (step : σ → ι → σ × ω) (P : σ → Prop) (Q : ω → Prop)
    (hP : ∀ s i, P s → P (step s i).1) (hQ : ∀ s i, P s → Q (step s i).2) :
    ∀ (is : List ι) (s : σ), P s → ∀ o ∈ (runSteps step s is).2, Q o
  | [], _, _, o, ho => by cases ho
  | i :: is, s, hs, o, ho => by
    rcases List.mem_cons.1 ho with rfl | ho
    · exact hQ s i hs
    · exact runSteps_outputs step P Q hP hQ is _ (hP s i hs) o ho

/-! ## Steps without output -/

def runAll (step : ι → σ → σ) : List ι → σ → σ
  | [], s => s
  | i :: is, s => runAll step is (step i s)

/-- A condition on every step of a run, at the state it is taken from. -/
def Along (step : ι → σ → σ) (C : ι → σ → Prop) : List ι → σ → Prop
  | [], _ => True
  | i :: is, s => C i s ∧ Along step C is (step i s)

instance Along.decidable (step : ι → σ → σ) (C : ι → σ → Prop) [∀ i s, Decidable (C i s)] :
    ∀ (is : List ι) (s : σ), Decidable (Along step C is s)
  | [], _ => inferInstanceAs (Decidable True)
  | i :: is, s =>
    have := Along.decidable step C is (step i s)
    inferInstanceAs (Decidable (C i s ∧ Along step C is (step i s)))

variable {step : ι → σ → σ}

/-- **What every step that meets the condition keeps, a run along which the condition holds keeps.** -/
theorem runAll_inv {C : ι → σ → Prop} {P : σ → Prop} (hstep : ∀ i s, C i s → P s → P (step i s)) :
    ∀ (is : List ι) (s : σ), Along step C is s → P s → P (runAll step is s)
  | [], _, _, hs => hs
  | i :: is, s, hc, hs => runAll_inv hstep is (step i s) hc.2 (hstep i s hc.1 hs)

/-- **What holds along a run holds along the run of a watcher of it.** -/
theorem Along.lift {τ : Type} (step : ι → σ → σ) (watch : ι → τ → τ) (f : τ → σ)
    (hf : ∀ i t, f (watch i t) = step i (f t)) {C : ι → σ → Prop} :
    ∀ (is : List ι) (t : τ), Along step C is (f t) → Along watch (fun i t => C i (f t)) is t
  | [], _, _ => trivial
  | i :: is, t, h => ⟨h.1, Along.lift step watch f hf is (watch i t) (hf i t ▸ h.2)⟩

theorem runAll_append (step : ι → σ → σ) : ∀ (is js : List ι) (s : σ),
    runAll step (is ++ js) s = runAll step js (runAll step is s)
  | [], _, _ => rfl
  | i :: is, js, s => runAll_append step is js (step i s)

/-- **An invariant that also reads the steps taken so far.** -/
theorem runAll_history {s : σ} {P : List ι → σ → Prop} (h0 : P [] s)
    (hstep : ∀ is i, P is (runAll step is s) → P (is ++ [i]) (step i (runAll step is s))) (is : List ι) :
    P is (runAll step is s) := by
  induction is using List.reverseRecOn with
  | nil => exact h0
  | append_singleton is i ih =>
    rw [runAll_append]
    exact hstep is i ih

/-! ## The order of the steps -/

theorem runAll_move {i : ι} : ∀ (is js : List ι), (∀ j ∈ is, ∀ s, step i (step j s) = step j (step i s)) → ∀ s,
    runAll step (is ++ i :: js) s = runAll step (i :: (is ++ js)) s
  | [], _, _, _ => rfl
  | j :: is, js, h, s =>
    have ih := runAll_move is js (List.forall_mem_cons.1 h).2 (step j s)
    ih.trans (congrArg (runAll step (is ++ js)) ((List.forall_mem_cons.1 h).1 s))

/-- **Reordering a run.**  Two orders of the same steps end in the same state if every two steps they order differently
commute. -/
theorem runAll_reorder : ∀ (is js : List ι), is.Perm js → (∀ i j, [i, j].Sublist is → [j, i].Sublist js →
    ∀ s, step i (step j s) = step j (step i s)) → ∀ s, runAll step is s = runAll step js s
  | [], js, hp, _, _ => by rw [List.nil_perm.1 hp]
  | i :: is, js, hp, h, s => by
    obtain ⟨pre, post, rfl⟩ := List.append_of_mem (hp.subset List.mem_cons_self)
    have hp' : is.Perm (pre ++ post) := (hp.trans List.perm_middle).cons_inv
    rw [runAll_move pre post (fun j hj => h i j ?_ ?_)]
    · refine runAll_reorder is (pre ++ post) hp' (fun k j hk hj => h k j (hk.cons _) (hj.trans ?_)) (step i s)
      exact (List.Sublist.refl pre).append (List.sublist_cons_self i post)
    · exact (List.singleton_sublist.2 (hp'.mem_iff.2 (List.mem_append_left _ hj))).cons_cons i
    · exact (List.singleton_sublist.2 hj).append (List.singleton_sublist.2 List.mem_cons_self)

end Hipfire

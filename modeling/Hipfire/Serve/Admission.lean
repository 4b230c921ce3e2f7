import Hipfire.Base.Machine
/-!
# Admission — the budget of device memory

`admission.rs`: a grant of context for every admitted session, charged against a budget of bytes.  The weights of the model
are charged once, with the first grant.
-/
namespace Hipfire.Serve

open List

structure ModelFootprint where
  weightsBytes : Nat
  kvBytesPerToken : Nat
deriving DecidableEq, Repr

inductive AdmitError where
  | poolFull
  | wouldExceedBudget (need available : Nat)
  | unknownSession (id : Nat)
deriving DecidableEq, Repr

structure AdmissionController where
  footprint : ModelFootprint
  budgetBytes : Nat
  admitted : List (Nat × Nat)
deriving DecidableEq, Repr

namespace AdmissionController

def new (footprint : ModelFootprint) (budgetBytes : Nat) : AdmissionController := ⟨footprint, budgetBytes, []⟩

variable (adm : AdmissionController)

/-- `checked_mul(..).unwrap_or(u64::MAX)`. -/
def kvBytes (ctx : Nat) : Nat := saturatingMul ctx adm.footprint.kvBytesPerToken

def usedBytes : Nat :=
  if adm.admitted = [] then 0
  else saturatingAdd adm.footprint.weightsBytes
    (adm.admitted.foldl (fun bytes g => saturatingAdd bytes (adm.kvBytes g.2)) 0)

/-- `budget_bytes.saturating_sub(used_bytes())`. -/
def available : Nat := adm.budgetBytes - adm.usedBytes

def admitSession (session requestedCtx : Nat) : AdmissionController × Except AdmitError Nat :=
  let kvNeed := requestedCtx * adm.footprint.kvBytesPerToken
  if usizeMax < kvNeed then (adm, .error (.wouldExceedBudget usizeMax 0))
  else
    let need := kvNeed + (if adm.admitted = [] then adm.footprint.weightsBytes else 0)
    if usizeMax < need then (adm, .error (.wouldExceedBudget usizeMax 0))
    else if adm.available ≤ need then (adm, .error (.wouldExceedBudget need adm.available))
    else ({ adm with admitted := adm.admitted ++ [(session, requestedCtx)] }, .ok requestedCtx)

/-- The first grant of a session, changed. -/
def regrant (session newCtx : Nat) : List (Nat × Nat) → List (Nat × Nat)
  | [] => []
  | g :: gs => if g.1 = session then (g.1, newCtx) :: gs else g :: regrant session newCtx gs

def resize (session newCtx : Nat) : AdmissionController × Except AdmitError Nat :=
  match adm.admitted.find? (fun g => g.1 == session) with
  | none => (adm, .error (.unknownSession session))
  | some g =>
    let oldKv := adm.kvBytes g.2
    let newKv := adm.kvBytes newCtx
    if oldKv < newKv ∧ adm.available ≤ newKv - oldKv then (adm, .error (.wouldExceedBudget (newKv - oldKv) adm.available))
    else ({ adm with admitted := regrant session newCtx adm.admitted }, .ok newCtx)

def release (session : Nat) : AdmissionController :=
  { adm with admitted := adm.admitted.eraseP (fun g => g.1 == session) }

/-! ## The bytes in use -/

/-- The bytes of some grants, before any saturation of their sum. -/
def kvSum (gs : List (Nat × Nat)) : Nat := (gs.map (fun g => adm.kvBytes g.2)).sum

theorem foldl_saturatingAdd (f : Nat × Nat → Nat) : ∀ (gs : List (Nat × Nat)) (a : Nat), a ≤ usizeMax →
    gs.foldl (fun bytes g => saturatingAdd bytes (f g)) a = min (a + (gs.map f).sum) usizeMax
  | [], a, ha => by simp [ha]
  | g :: gs, a, ha => by
    rw [foldl_cons, foldl_saturatingAdd f gs (saturatingAdd a (f g)) (Nat.min_le_right _ _), map_cons, sum_cons]
    unfold saturatingAdd
    omega

theorem usedBytes_eq (h : adm.admitted ≠ []) :
    adm.usedBytes = min (adm.footprint.weightsBytes + adm.kvSum adm.admitted) usizeMax := by
  unfold usedBytes
  rw [if_neg h, foldl_saturatingAdd (fun g => adm.kvBytes g.2) _ 0 (Nat.zero_le _)]
  unfold saturatingAdd kvSum
  omega

/-- **Below the budget**, whenever anything is granted. -/
def Below : Prop := adm.admitted ≠ [] → adm.usedBytes < adm.budgetBytes

theorem below_new (footprint : ModelFootprint) (budgetBytes : Nat) : (new footprint budgetBytes).Below :=
  fun h => absurd rfl h

variable {adm}

theorem Below.shrink (h : adm.Below) {gs : List (Nat × Nat)} (hgs : gs ≠ [] → adm.admitted ≠ [])
    (hle : adm.kvSum gs ≤ adm.kvSum adm.admitted) : ({ adm with admitted := gs } : AdmissionController).Below := by
  intro hne
  have hold := h (hgs hne)
  rw [usedBytes_eq _ (hgs hne)] at hold
  rw [usedBytes_eq _ hne]
  show min (adm.footprint.weightsBytes + adm.kvSum gs) usizeMax < adm.budgetBytes
  omega

/-- **What an admission does**: it changes nothing, or appends a grant and stays below the budget. -/
theorem admit_cases (adm : AdmissionController) (session ctx : Nat) :
    (∃ e, adm.admitSession session ctx = (adm, .error e)) ∨
      adm.admitSession session ctx = ({ adm with admitted := adm.admitted ++ [(session, ctx)] }, .ok ctx) ∧
        ({ adm with admitted := adm.admitted ++ [(session, ctx)] } : AdmissionController).Below := by
  unfold admitSession
  by_cases h1 : usizeMax < ctx * adm.footprint.kvBytesPerToken
  · exact .inl ⟨_, by rw [if_pos h1]⟩
  by_cases h2 : usizeMax < ctx * adm.footprint.kvBytesPerToken + (if adm.admitted = [] then adm.footprint.weightsBytes else 0)
  · exact .inl ⟨_, by rw [if_neg h1, if_pos h2]⟩
  by_cases h3 : adm.available ≤
      ctx * adm.footprint.kvBytesPerToken + (if adm.admitted = [] then adm.footprint.weightsBytes else 0)
  · exact .inl ⟨_, by rw [if_neg h1, if_neg h2, if_pos h3]⟩
  refine .inr ⟨by rw [if_neg h1, if_neg h2, if_neg h3], fun _ => ?_⟩
  have hkv : adm.kvBytes ctx = ctx * adm.footprint.kvBytesPerToken := Nat.min_eq_left (Nat.not_lt.1 h1)
  have hsum : adm.kvSum (adm.admitted ++ [(session, ctx)]) = adm.kvSum adm.admitted + adm.kvBytes ctx := by
    simp [kvSum]
  rw [usedBytes_eq _ (by simp)]
  show min (adm.footprint.weightsBytes + adm.kvSum (adm.admitted ++ [(session, ctx)])) usizeMax < adm.budgetBytes
  by_cases he : adm.admitted = []
  · have hused : adm.usedBytes = 0 := if_pos he
    have hzero : adm.kvSum adm.admitted = 0 := by rw [he]; rfl
    rw [available, if_pos he, hused] at h3
    omega
  · rw [available, if_neg he, usedBytes_eq _ he] at h3
    omega

theorem kvSum_regrant (session newCtx : Nat) : ∀ (gs : List (Nat × Nat)) (g : Nat × Nat),
    gs.find? (fun g => g.1 == session) = some g →
      adm.kvSum (regrant session newCtx gs) + adm.kvBytes g.2 = adm.kvSum gs + adm.kvBytes newCtx
  | [], g, h => by cases h
  | x :: gs, g, h => by
    rw [find?_cons] at h
    unfold regrant
    by_cases hx : x.1 = session
    · rw [hx, beq_self_eq_true, Option.some.injEq] at h
      subst h
      rw [if_pos hx]
      simp only [kvSum, map_cons, sum_cons]
      omega
    · rw [beq_eq_false_iff_ne.2 hx] at h
      have ih := kvSum_regrant session newCtx gs g h
      rw [if_neg hx]
      simp only [kvSum, map_cons, sum_cons] at ih ⊢
      omega

/-- **What a resize does**: it changes nothing, or changes the size of the session's grant and stays below the budget. -/
theorem resize_cases (h : adm.Below) (session newCtx : Nat) : (∃ e, adm.resize session newCtx = (adm, .error e)) ∨
      (∃ ctx, (session, ctx) ∈ adm.admitted) ∧
      adm.resize session newCtx = ({ adm with admitted := regrant session newCtx adm.admitted }, .ok newCtx) ∧
        ({ adm with admitted := regrant session newCtx adm.admitted } : AdmissionController).Below := by
  unfold resize
  cases hf : adm.admitted.find? (fun g => g.1 == session) with
  | none => exact .inl ⟨_, rfl⟩
  | some g =>
    dsimp only
    by_cases hgrow : adm.kvBytes g.2 < adm.kvBytes newCtx ∧ adm.available ≤ adm.kvBytes newCtx - adm.kvBytes g.2
    · exact .inl ⟨_, by rw [if_pos hgrow]⟩
    have hmem := mem_of_find?_eq_some hf
    have hid : g.1 = session := by simpa using find?_some hf
    refine .inr ⟨⟨g.2, by rw [← hid]; exact hmem⟩, by rw [if_neg hgrow], ?_⟩
    have hne : adm.admitted ≠ [] := ne_nil_of_mem hmem
    have hsum := adm.kvSum_regrant session newCtx adm.admitted g hf
    by_cases hle : adm.kvBytes newCtx ≤ adm.kvBytes g.2
    · exact h.shrink (fun _ => hne) (by omega)
    intro hne'
    rw [usedBytes_eq _ hne']
    show min (adm.footprint.weightsBytes + adm.kvSum (regrant session newCtx adm.admitted)) usizeMax < adm.budgetBytes
    rw [available, usedBytes_eq _ hne] at hgrow
    omega

theorem Below.release (h : adm.Below) (session : Nat) : (adm.release session).Below := by
  refine h.shrink (fun hne he => hne (by rw [he]; rfl)) ?_
  have hsub : (adm.admitted.eraseP (fun g => g.1 == session)).Sublist adm.admitted := eraseP_sublist
  exact (hsub.map _).sum_le_sum (by simp)

end AdmissionController
end Hipfire.Serve

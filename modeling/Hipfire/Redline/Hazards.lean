import Hipfire.Redline.Order
/-!
# Hazards — `unorderedHazards` lists each unordered conflict once

A conflict is named by two node indices and the positions of the two accesses.  The list is the image of the conflicts
between nodes that do not reach each other, each of them once (`unorderedHazards_spec`).
-/
namespace Hipfire.Redline

open List
open Relation (TransGen)

/-- Two nodes of a recorder, neither of which waits for the other. -/
def Unrelated (r : Recorder) (i j : Nat) : Prop :=
  ¬ TransGen (Arc r.edges) ⟨r.owner, i⟩ ⟨r.owner, j⟩ ∧ ¬ TransGen (Arc r.edges) ⟨r.owner, j⟩ ⟨r.owner, i⟩

/-- Overlapping regions of one resource, at least one of them written. -/
def Access.Conflicts (a b : Access) : Prop := a.region.overlaps b.region = true ∧ (a.mode = .write ∨ b.mode = .write)

theorem conflictOf_isSome (a b : Access) : (conflictOf a b).isSome ↔ a.Conflicts b := by
  unfold conflictOf Access.Conflicts
  rw [← DeviceRegion.intersection_isSome]
  cases hx : a.region.intersection b.region with
  | none => simp
  | some o => cases ha : a.mode <;> cases hb : b.mode <;> simp

/-- The place of a conflict: a node and one of its accesses, twice. -/
structure ConflictAt where
  first : Nat
  firstAccess : Nat
  second : Nat
  secondAccess : Nat
deriving DecidableEq

/-- The two accesses at a place, with the ids of their nodes. -/
def Recorder.accessesAt (r : Recorder) (c : ConflictAt) : Option ((NodeId × Access) × (NodeId × Access)) :=
  match r.nodes[c.first]?, r.nodes[c.second]? with
  | some n, some m =>
    match n.accesses[c.firstAccess]?, m.accesses[c.secondAccess]? with
    | some a, some b => some ((n.id, a), (m.id, b))
    | _, _ => none
  | _, _ => none

/-- Two accesses of different nodes, the first recorded earlier, that conflict while neither node waits for the other. -/
def UnorderedConflict (r : Recorder) (c : ConflictAt) : Prop :=
  c.first < c.second ∧ Unrelated r c.first c.second ∧
    ∃ p, r.accessesAt c = some p ∧ p.1.2.Conflicts p.2.2

/-- The hazard that the conflict at a place is reported as. -/
def hazardOf (r : Recorder) (c : ConflictAt) : Option Hazard :=
  match r.accessesAt c with
  | none => none
  | some p => (conflictOf p.1.2 p.2.2).map (fun k => ⟨p.1.1, p.2.1, k.1, k.2⟩)

/-! ## The places, in the order of the scan -/

def placesBetween (i j : Nat) (n m : Node) : List ConflictAt :=
  n.accesses.zipIdx.flatMap (fun p => (m.accesses.zipIdx.filter (fun q => (conflictOf p.1 q.1).isSome)).map
    (fun q => ⟨i, p.2, j, q.2⟩))

def placesAt (r : Recorder) (reachable : Nat → Nat → Bool) (i j : Nat) : List ConflictAt :=
  if reachable i j || reachable j i then []
  else match r.nodes[i]?, r.nodes[j]? with
    | some n, some m => placesBetween i j n m
    | _, _ => []

def places (r : Recorder) (reachable : Nat → Nat → Bool) : List ConflictAt :=
  (range r.nodes.length).flatMap (fun i =>
    (range' (i + 1) (r.nodes.length - (i + 1))).flatMap (fun j => placesAt r reachable i j))

variable {β γ : Type}

theorem zipIdx_filter_map (f : β → Option γ) (g : β × Nat → Option γ) (l : List β)
    (h : ∀ p ∈ l.zipIdx, (f p.1).isSome → g p = f p.1) :
    (l.zipIdx.filter (fun p => (f p.1).isSome)).map g = (l.filterMap f).map some := by
  have key : ∀ (l' : List (β × Nat)), (∀ p ∈ l', (f p.1).isSome → g p = f p.1) →
      (l'.filter (fun p => (f p.1).isSome)).map g = ((l'.map Prod.fst).filterMap f).map some := by
    intro l'
    induction l' with
    | nil => exact fun _ => rfl
    | cons p l' ih =>
      intro hl
      have ih' := ih (forall_mem_cons.1 hl).2
      cases hf : f p.1 with
      | none => simpa [hf] using ih'
      | some c =>
        have hg := hl p (by simp) (by simp [hf])
        simpa [hf, hg] using ih'
  rw [key l.zipIdx h, zipIdx_map_fst]

variable {n m : Node} {i j : Nat} {r : Recorder}

theorem map_placesBetween (hn : r.nodes[i]? = some n) (hm : r.nodes[j]? = some m) :
    (placesBetween i j n m).map (hazardOf r) = (hazardsBetween n m).map some := by
  unfold placesBetween hazardsBetween
  rw [map_flatMap, map_flatMap]
  -- strip the positions of the first node's accesses
  have hfst : ∀ (F : Access → List (Option Hazard)), n.accesses.zipIdx.flatMap (fun p => F p.1) = n.accesses.flatMap F := by
    intro F
    rw [← flatMap_map Prod.fst F, zipIdx_map_fst]
  rw [← hfst]
  refine flatMap_congr (fun p hp => ?_)
  have hp' := (mem_zipIdx_iff_getElem?.1 hp)
  have := zipIdx_filter_map (fun b => (conflictOf p.1 b).map (fun c => (⟨n.id, m.id, c.1, c.2⟩ : Hazard)))
    (hazardOf r ∘ fun q => ⟨i, p.2, j, q.2⟩) m.accesses (fun q hq _ => by
      have hq' := mem_zipIdx_iff_getElem?.1 hq
      simp [hazardOf, Recorder.accessesAt, hn, hm, hp', hq'])
  simpa using this

theorem map_places (r : Recorder) (reachable : Nat → Nat → Bool) :
    (places r reachable).map (hazardOf r) = (unorderedHazards r reachable).map some := by
  unfold places unorderedHazards
  rw [map_flatMap, map_flatMap]
  refine flatMap_congr (fun i _ => ?_)
  rw [map_flatMap, map_flatMap]
  refine flatMap_congr (fun j _ => ?_)
  unfold placesAt hazardsAt
  split
  · rfl
  cases hn : r.nodes[i]? with
  | none => rfl
  | some n =>
    cases hm : r.nodes[j]? with
    | none => rfl
    | some m => exact map_placesBetween hn hm

/-- Blocks with distinct keys, each without repetition, make a list without repetition. -/
theorem nodup_flatMap_of_key {κ : Type} (f : β → List γ) (key : γ → κ) (k : β → κ) (l : List β)
    (hk : (l.map k).Nodup) (hf : ∀ x ∈ l, (f x).Nodup) (hkey : ∀ x ∈ l, ∀ y ∈ f x, key y = k x) : (l.flatMap f).Nodup := by
  rw [nodup_flatMap]
  refine ⟨hf, ?_⟩
  have := pairwise_map.1 hk
  refine this.imp_of_mem (fun {a b} ha hb hab => ?_)
  intro y hya hyb
  exact hab ((hkey a ha y hya).symm.trans (hkey b hb y hyb))

theorem nodup_placesBetween (i j : Nat) (n m : Node) : (placesBetween i j n m).Nodup := by
  refine nodup_flatMap_of_key _ ConflictAt.firstAccess Prod.snd _ ?_ (fun p _ => ?_) (fun p _ c hc => ?_)
  · rw [zipIdx_map_snd]; exact nodup_range'
  · have hnd : ((m.accesses.zipIdx.filter (fun q => (conflictOf p.1 q.1).isSome)).map Prod.snd).Nodup := by
      refine Nodup.sublist (filter_sublist.map Prod.snd) ?_
      rw [zipIdx_map_snd]; exact nodup_range'
    refine Nodup.of_map ConflictAt.secondAccess ?_
    rw [map_map]
    exact hnd
  · obtain ⟨q, -, rfl⟩ := mem_map.1 hc
    rfl

variable {c : ConflictAt}

theorem mem_placesBetween : c ∈ placesBetween i j n m ↔
    c.first = i ∧ c.second = j ∧ ∃ a b, n.accesses[c.firstAccess]? = some a ∧ m.accesses[c.secondAccess]? = some b ∧
      a.Conflicts b := by
  unfold placesBetween
  rw [mem_flatMap]
  constructor
  · rintro ⟨p, hp, hc⟩
    obtain ⟨q, hq, rfl⟩ := mem_map.1 hc
    obtain ⟨hq, hpq⟩ := mem_filter.1 hq
    exact ⟨rfl, rfl, p.1, q.1, mem_zipIdx_iff_getElem?.1 hp, mem_zipIdx_iff_getElem?.1 hq,
      (conflictOf_isSome _ _).1 hpq⟩
  · rintro ⟨h1, h2, a, b, ha, hb, hab⟩
    refine ⟨(a, c.firstAccess), mem_zipIdx_iff_getElem?.2 ha, mem_map.2 ⟨(b, c.secondAccess),
      mem_filter.2 ⟨mem_zipIdx_iff_getElem?.2 hb, (conflictOf_isSome _ _).2 hab⟩, ?_⟩⟩
    rw [← h1, ← h2]

variable {reachable : Nat → Nat → Bool}

theorem placesAt_pair (h : c ∈ placesAt r reachable i j) : c.first = i ∧ c.second = j := by
  unfold placesAt at h
  split at h
  · cases h
  split at h
  · obtain ⟨h1, h2, -⟩ := mem_placesBetween.1 h; exact ⟨h1, h2⟩
  · cases h

theorem nodup_places (r : Recorder) (reachable : Nat → Nat → Bool) : (places r reachable).Nodup := by
  refine nodup_flatMap_of_key _ ConflictAt.first id _ (by simpa using nodup_range) (fun i _ => ?_) (fun i _ c hc => ?_)
  · refine nodup_flatMap_of_key _ ConflictAt.second id _ (by simpa using nodup_range') (fun j _ => ?_)
      (fun j _ c hc => (placesAt_pair hc).2)
    unfold placesAt
    split
    · exact nodup_nil
    split
    · exact nodup_placesBetween _ _ _ _
    · exact nodup_nil
  · obtain ⟨j, -, hc⟩ := mem_flatMap.1 hc
    exact (placesAt_pair hc).1

theorem mem_places : c ∈ places r reachable ↔
    c.first < c.second ∧ (reachable c.first c.second = false ∧ reachable c.second c.first = false) ∧
      ∃ p, r.accessesAt c = some p ∧ p.1.2.Conflicts p.2.2 := by
  unfold places
  simp only [mem_flatMap, mem_range, mem_range'_1]
  constructor
  · rintro ⟨i, hi, j, hj, hc⟩
    obtain ⟨rfl, rfl⟩ := placesAt_pair hc
    refine ⟨by omega, ?_⟩
    unfold placesAt at hc
    split at hc
    · cases hc
    rename_i hr
    split at hc
    · rename_i n m hn hm
      obtain ⟨-, -, a, b, ha, hb, hab⟩ := mem_placesBetween.1 hc
      exact ⟨by simpa using hr, ((n.id, a), (m.id, b)), by simp [Recorder.accessesAt, hn, hm, ha, hb], hab⟩
    · cases hc
  · rintro ⟨hlt, hr, p, hp, hab⟩
    unfold Recorder.accessesAt at hp
    split at hp
    · rename_i n m hn hm
      split at hp
      · rename_i a b ha hb
        cases hp
        have hj := (List.getElem?_eq_some_iff.1 hm).1
        refine ⟨c.first, by omega, c.second, by omega, ?_⟩
        unfold placesAt
        simp only [hr.1, hr.2, Bool.or_self, Bool.false_eq_true, if_false, hn, hm]
        exact mem_placesBetween.2 ⟨rfl, rfl, a, b, ha, hb, hab⟩
      · cases hp
    · cases hp

variable {order : List NodeId}

/-- **The hazards listed are the unordered conflicts, each once.** -/
theorem unorderedHazards_spec (hr : r.WF) (ho : PlanOrder r order) :
    ∃ L : List ConflictAt, L.Nodup ∧ (∀ c, c ∈ L ↔ UnorderedConflict r c) ∧
      (unorderedHazards r (reachability r order)).map some = L.map (hazardOf r) := by
  refine ⟨places r (reachability r order), nodup_places r _, fun c => ?_, (map_places r _).symm⟩
  rw [mem_places]
  unfold UnorderedConflict Unrelated
  rw [← reachability_iff hr ho, ← reachability_iff hr ho, Bool.not_eq_true, Bool.not_eq_true]

/-- **No hazard is listed exactly if there is no unordered conflict.** -/
theorem unorderedHazards_eq_nil (hr : r.WF) (ho : PlanOrder r order) :
    unorderedHazards r (reachability r order) = [] ↔ ∀ c, ¬ UnorderedConflict r c := by
  obtain ⟨L, -, hmem, hmap⟩ := unorderedHazards_spec hr ho
  rw [← map_eq_nil_iff (f := some), hmap, map_eq_nil_iff, eq_nil_iff_forall_not_mem]
  exact forall_congr' (fun c => not_congr (hmem c))

end Hipfire.Redline

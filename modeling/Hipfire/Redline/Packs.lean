import Hipfire.Redline.Accept
import Hipfire.Redline.Prepare
/-!
# Packs — validated bindings pack every dispatch of a plan

The recorder refuses a resource argument outside its resource, and compilation refuses a scalar slot of two sizes.  So a
dispatch whose arguments were packed under some bindings can be packed under all that are validated against the plan
(`packLaunch_transfer`).
-/
namespace Hipfire.Redline

open List

/-! ## Arguments in bounds -/

/-- Every resource argument of a recorded launch points into its resource. -/
def Recorder.ArgumentsInBounds (r : Recorder) : Prop :=
  ∀ n ∈ r.nodes, ∀ resource offset, KernelArg.resource resource offset ∈ n.launch.arguments →
    ∃ entry, r.resourceEntry resource = .ok entry ∧ offset < entry.size

variable {d : PlannedDispatch} {b0 : ReplayBindings} {resource : ResourceId} {entry : Resource} {r : Recorder}

theorem resourceEntry_ok :
    r.resourceEntry resource = .ok entry ↔ resource.owner = r.owner ∧ r.resources[resource.index]? = some entry := by
  unfold Recorder.resourceEntry
  by_cases ho : resource.owner = r.owner
  · cases r.resources[resource.index]? with
    | none | some e => simp [ho]
  · simp [ho]

theorem resourceEntry_append (more : List Resource) (h : r.resourceEntry resource = .ok entry) :
    Recorder.resourceEntry { r with resources := r.resources ++ more } resource = .ok entry := by
  obtain ⟨ho, he⟩ := resourceEntry_ok.1 h
  exact resourceEntry_ok.2 ⟨ho, getElem?_append_of_some he _⟩

theorem validateArgument_resource {accesses : List Access} {offset : Nat}
    (h : r.validateArgument accesses (.resource resource offset) = .ok ()) :
    ∃ entry, r.resourceEntry resource = .ok entry ∧ offset < entry.size := by
  simp only [Recorder.validateArgument] at h
  split at h
  · cases h
  rename_i entry he
  split at h
  · cases h
  · exact ⟨entry, he, by omega⟩

theorem inBounds_apply {r' : Recorder} {op : RecorderOp} (hr : r.ArgumentsInBounds) (h : r.Applied op r') :
    r'.ArgumentsInBounds := by
  cases h with
  | resource _ =>
    intro n hn resource offset ha
    obtain ⟨entry, he, hlt⟩ := hr n hn resource offset ha
    exact ⟨entry, resourceEntry_append _ he, hlt⟩
  | dispatch hargs _ =>
    exact forall_mem_append.2 ⟨hr, forall_mem_singleton.2 fun _ _ ha =>
      validateArgument_resource ((firstError_ok _ _).1 hargs _ ha)⟩
  | refused | dependsOn _ _ _ => exact hr

/-- **No built recorder has a resource argument out of bounds.** -/
theorem inBounds_build (owner : Nat) (ops : List RecorderOp) : (build owner ops).ArgumentsInBounds :=
  foldlRecOn ops Recorder.apply (nofun) fun r hr op _ => inBounds_apply hr (r.applied op)

/-! ## Scalar slots -/

section map

variable {κ ν : Type} {lt : κ → κ → Bool} {p : κ × ν}

theorem mem_of_mapInsert (k : κ) (v : ν) : ∀ {l : List (κ × ν)}, p ∈ mapInsert lt k v l → p = (k, v) ∨ p ∈ l
  | [], h => .inl (mem_singleton.1 h)
  | q :: l, h => by
    unfold mapInsert at h
    split at h
    · exact mem_cons.1 h
    split at h
    · rcases mem_cons.1 h with rfl | h
      · exact .inr mem_cons_self
      · exact (mem_of_mapInsert k v h).imp id (mem_cons_of_mem _)
    · exact (mem_cons.1 h).imp id (mem_cons_of_mem _)

theorem mapInsert_self (k : κ) (v : ν) : ∀ l : List (κ × ν), (k, v) ∈ mapInsert lt k v l
  | [] => mem_singleton.2 rfl
  | q :: l => by
    unfold mapInsert
    split
    · exact mem_cons_self
    split
    · exact mem_cons_of_mem _ (mapInsert_self k v l)
    · exact mem_cons_self

theorem mapInsert_key (hlt : TotalLt lt) (k : κ) (v : ν) :
    ∀ {l : List (κ × ν)}, p ∈ l → ∃ w, (p.1, w) ∈ mapInsert lt k v l
  | q :: l, h => by
    unfold mapInsert
    split
    · exact ⟨p.2, mem_cons_of_mem _ h⟩
    rename_i h1
    split
    · rcases mem_cons.1 h with rfl | h
      · exact ⟨p.2, mem_cons_self⟩
      · obtain ⟨w, hw⟩ := mapInsert_key hlt k v h
        exact ⟨w, mem_cons_of_mem _ hw⟩
    · rename_i h2
      rcases mem_cons.1 h with rfl | h
      · have hk : k = p.1 := hlt.tri _ _ (by simpa using h1) (by simpa using h2)
        exact ⟨v, by rw [← hk]; exact mem_cons_self⟩
      · exact ⟨p.2, mem_cons_of_mem _ h⟩

theorem foldl_mapInsert (hlt : TotalLt lt) : ∀ (ps acc : List (κ × ν)),
    (∀ p ∈ ps.foldl (fun m p => mapInsert lt p.1 p.2 m) acc, p ∈ ps ∨ p ∈ acc) ∧
    ∀ p, p ∈ ps ∨ p ∈ acc → ∃ w, (p.1, w) ∈ ps.foldl (fun m p => mapInsert lt p.1 p.2 m) acc
  | [], acc => ⟨fun p hp => .inr hp, fun p hp => ⟨p.2, hp.resolve_left not_mem_nil⟩⟩
  | q :: ps, acc => by
    obtain ⟨h1, h2⟩ := foldl_mapInsert hlt ps (mapInsert lt q.1 q.2 acc)
    refine ⟨fun p hp => ?_, fun p hp => ?_⟩
    · rcases h1 p hp with hp | hp
      · exact .inl (mem_cons_of_mem _ hp)
      · rcases mem_of_mapInsert _ _ hp with rfl | hp
        · exact .inl mem_cons_self
        · exact .inr hp
    · rcases hp with hp | hp
      · rcases mem_cons.1 hp with rfl | hp
        · exact h2 p (.inr (mapInsert_self _ _ _))
        · exact h2 p (.inl hp)
      · obtain ⟨w, hw⟩ := mapInsert_key hlt q.1 q.2 hp
        exact h2 (p.1, w) (.inr hw)

end map

theorem totalLt_slot : TotalLt (fun a b : ScalarSlotId => decide (a < b)) where
  irrefl a := by simp
  trans a b c := by simp only [decide_eq_true_eq]; exact Nat.lt_trans
  tri a b h1 h2 := by
    simp only [decide_eq_false_iff_not] at h1 h2
    exact Nat.le_antisymm (Nat.not_lt.1 h2) (Nat.not_lt.1 h1)

theorem insert_slotsOf : ∀ (arguments : List KernelArg) (slots : List (ScalarSlotId × Nat)),
    arguments.foldl (fun slots argument =>
      match argument with
      | .scalarSlot slot size => mapInsert (fun a b => decide (a < b)) slot size slots
      | _ => slots) slots =
    (slotsOf arguments).foldl (fun m p => mapInsert (fun a b => decide (a < b)) p.1 p.2 m) slots
  | [], _ => rfl
  | .scalar _ :: arguments, slots | .resource _ _ :: arguments, slots => insert_slotsOf arguments slots
  | .scalarSlot _ _ :: arguments, _ => insert_slotsOf arguments _

/-- The map of slots is filled with the slots of all launches, one after the other. -/
theorem scalarSlots_eq (plan : CompiledPlan) : plan.scalarSlots =
    (plan.dispatches.flatMap (fun d => slotsOf d.launch.arguments)).foldl
      (fun m p => mapInsert (fun a b => decide (a < b)) p.1 p.2 m) [] := by
  rw [foldl_flatMap]
  exact congrArg (fun f => foldl f [] plan.dispatches) (funext fun slots => funext fun d => insert_slotsOf _ slots)

/-! ## Validated bindings -/

section validated

variable {r : Recorder} {options : CompileOptions} {plan : CompiledPlan} {b : ReplayBindings}

theorem validate_ok (h : b.validate plan = .ok ()) : (∀ p ∈ plan.resources, b.checkResource p = .ok ()) ∧
    ∀ s ∈ plan.scalarSlots, b.checkScalar s = .ok () := by
  unfold ReplayBindings.validate at h
  split at h
  · cases h
  rename_i h1
  split at h
  · cases h
  · rename_i h2
    exact ⟨(firstError_ok _ _).1 h1, (firstError_ok _ _).1 h2⟩

theorem PlanOf.launch_of (h : PlanOf r options plan) (hd : d ∈ plan.dispatches) :
    ∃ n ∈ r.nodes, d.launch = n.launch := by
  obtain ⟨n, hn, hl, -⟩ := (h.planned d hd).1.entry
  exact ⟨n, mem_of_getElem? hn, hl⟩

/-- A validated scalar slot has the size that each launch gives it. -/
theorem scalar_bound (hc : ConsistentContracts r) (h : PlanOf r options plan)
    (hv : b.validate plan = .ok ()) (hd : d ∈ plan.dispatches) {slot : ScalarSlotId} {size : Nat}
    (ha : KernelArg.scalarSlot slot size ∈ d.launch.arguments) :
    ∃ bytes, b.scalar slot = some bytes ∧ bytes.length = size := by
  obtain ⟨hfrom, hkeys⟩ := foldl_mapInsert totalLt_slot (plan.dispatches.flatMap (fun d => slotsOf d.launch.arguments)) []
  rw [← scalarSlots_eq] at hfrom hkeys
  obtain ⟨size', hm⟩ := hkeys (slot, size) (.inl (mem_flatMap.2 ⟨d, hd, mem_slotsOf.2 ha⟩))
  have hcheck := (validate_ok hv).2 _ hm
  -- the size kept in the map is that of some launch, and so this launch's
  obtain ⟨e, he, hs⟩ := mem_flatMap.1 ((hfrom _ hm).resolve_right not_mem_nil)
  obtain ⟨n, hn, hdn⟩ := h.launch_of hd
  obtain ⟨m, hm', hem⟩ := h.launch_of he
  obtain rfl := hc.slots n hn m hm' slot size size' (hdn ▸ ha) (hem ▸ mem_slotsOf.1 hs)
  unfold ReplayBindings.checkScalar at hcheck
  split at hcheck
  · cases hcheck
  rename_i bytes hb
  split at hcheck
  · rename_i hl
    exact ⟨bytes, hb, hl⟩
  · cases hcheck

/-- A validated resource covers every argument that points into it. -/
theorem resource_bound (hin : r.ArgumentsInBounds) (h : PlanOf r options plan)
    (hv : b.validate plan = .ok ()) (hd : d ∈ plan.dispatches) {offset : Nat}
    (ha : KernelArg.resource resource offset ∈ d.launch.arguments) :
    ∃ binding, b.resource resource = some binding ∧ offset < binding.size := by
  obtain ⟨n, hn, hdn⟩ := h.launch_of hd
  obtain ⟨entry, he, hlt⟩ := hin n hn resource offset (hdn ▸ ha)
  obtain ⟨ho, hget⟩ := resourceEntry_ok.1 he
  have hmem : (⟨resource, entry.label, entry.size⟩ : PlannedResource) ∈ plan.resources := by
    rw [h.resources]
    refine mem_map.2 ⟨(entry, resource.index), mem_zipIdx_iff_getElem?.2 hget, ?_⟩
    rw [← ho]
  have hcheck := (validate_ok hv).1 _ hmem
  unfold ReplayBindings.checkResource at hcheck
  split at hcheck
  · cases hcheck
  rename_i binding hb
  split at hcheck
  · cases hcheck
  · rename_i hs
    exact ⟨binding, hb, Nat.lt_of_lt_of_le hlt (Nat.not_lt.1 hs)⟩

/-- An argument that has bytes under some bindings has as many under validated ones. -/
theorem argumentBytes_transfer (hc : ConsistentContracts r) (hin : r.ArgumentsInBounds)
    (h : PlanOf r options plan) (hv : b.validate plan = .ok ()) (hd : d ∈ plan.dispatches) :
    ∀ {a : KernelArg} {value : List UInt8}, a ∈ d.launch.arguments → argumentBytes b0 a = .ok value →
      ∃ value', argumentBytes b a = .ok value' ∧ value'.length = value.length
  | .scalar bytes, value, _, h0 => ⟨value, h0, rfl⟩
  | .scalarSlot slot size, value, ha, h0 => by
    obtain ⟨bytes, hb, hl⟩ := scalar_bound hc h hv hd ha
    refine ⟨bytes, by simp only [argumentBytes, hb, if_pos hl], ?_⟩
    simp only [argumentBytes] at h0
    split at h0
    · cases h0
    split at h0
    · cases h0; omega
    · cases h0
  | .resource resource offset, value, ha, h0 => by
    obtain ⟨binding, hb, hlt⟩ := resource_bound hin h hv hd ha
    have hfits := binding.fits
    refine ⟨leBytes 8 (binding.base + offset), ?_, ?_⟩
    · simp only [argumentBytes, hb]
      rw [if_neg (by omega), if_neg (by omega)]
    simp only [argumentBytes] at h0
    split at h0
    · cases h0
    split at h0
    · cases h0
    split at h0
    · cases h0
    · cases h0; simp [leBytes]

theorem packFields_transfer {b1 : ReplayBindings} :
    ∀ (ps : List (KernelArg × KernargField)) (bytes bytes' : List UInt8),
    (∀ p ∈ ps, ∀ value, argumentBytes b0 p.1 = .ok value →
      ∃ value', argumentBytes b1 p.1 = .ok value' ∧ value'.length = value.length) →
    (packFields b0 ps bytes).2 = .ok () → (packFields b1 ps bytes').2 = .ok ()
  | [], _, _, _, _ => rfl
  | (a, f) :: ps, bytes, bytes', ht, h0 => by
    unfold packFields at h0 ⊢
    split at h0
    · cases h0
    rename_i value ha
    obtain ⟨value', ha', hl⟩ := ht (a, f) mem_cons_self value ha
    simp only [ha', hl]
    split at h0
    · rename_i hf
      rw [if_pos hf]
      exact packFields_transfer ps _ _ (forall_mem_cons.1 ht).2 h0
    · cases h0

/-- **What was packed once can be packed under any validated bindings.** -/
theorem packLaunch_transfer (hc : ConsistentContracts r) (hin : r.ArgumentsInBounds)
    (h : PlanOf r options plan) (hv : b.validate plan = .ok ()) (hd : d ∈ plan.dispatches)
    {out : List UInt8} (h0 : (packLaunch d b0 out).2 = .ok ()) : (packLaunch d b out).2 = .ok () := by
  unfold packLaunch at h0 ⊢
  split at h0
  · cases h0
  unfold packKernarg at h0
  split at h0
  · cases h0
  rename_i hval
  split at h0
  · rename_i hl
    simp only [packKernarg, hval, if_pos hl]
    exact packFields_transfer _ _ _ (fun p hp value hval =>
      argumentBytes_transfer hc hin h hv hd (of_mem_zip hp).1 hval) h0
  · cases h0

end validated

end Hipfire.Redline

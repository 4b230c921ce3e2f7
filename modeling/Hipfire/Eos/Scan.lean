import Hipfire.Eos.Filter
/-!
# Scan — what the filter is for

A whole text is read from left to right: what stands in a think span is dropped, and a lone closer; the first stop outside
of a span ends the text.  `scan` says this byte by byte; a filter state stands for what it has made visible, followed by the
scan of what it has not classified yet and of whatever comes after.
-/
namespace Hipfire.Eos

open List

/-- How a scan ended. -/
inductive Ending where
  | open | inThink | stopped
deriving DecidableEq

namespace EosFilterConfig

variable (config : EosFilterConfig)

/-- The markers that are watched for. -/
def markers : List Bytes := config.stops ++ if config.stripThink then [thinkOpen, thinkClose] else []

/-- No marker stands inside another past its beginning, and no stop begins a think tag or is begun by one. -/
structure Separate : Prop where
  inside : ∀ m ∈ config.markers, ∀ m' ∈ config.markers, ∀ x y, x ≠ [] → m' ≠ x ++ m ++ y
  tags : config.stripThink = true → ∀ stop ∈ config.stops, ∀ tag ∈ [thinkOpen, thinkClose],
    ¬ stop <+: tag ∧ ¬ tag <+: stop

variable {config} in
theorem mem_markers {m : Bytes} : m ∈ config.markers ↔
    m ∈ config.stops ∨ config.stripThink = true ∧ (m = thinkOpen ∨ m = thinkClose) := by
  unfold markers
  cases config.stripThink <;> simp

variable {config} in
theorem ne_nil_of_mem_stops {m : Bytes} (h : m ∈ config.stops) : m ≠ [] := by
  rintro rfl
  cases (mem_filter.1 h).2

variable {config} in
theorem ne_nil_of_mem_markers {m : Bytes} (h : m ∈ config.markers) : m ≠ [] := by
  rcases mem_markers.1 h with h | ⟨-, rfl | rfl⟩
  · exact ne_nil_of_mem_stops h
  · exact cons_ne_nil _ _
  · exact cons_ne_nil _ _

theorem separate_iff : config.Separate ↔ (∀ m ∈ config.markers, ∀ m' ∈ config.markers, ¬ m <:+: m'.tail) ∧
    (config.stripThink = true → ∀ stop ∈ config.stops, ∀ tag ∈ [thinkOpen, thinkClose],
      ¬ stop <+: tag ∧ ¬ tag <+: stop) := by
  constructor
  · refine fun h => ⟨fun m hm m' hm' => ?_, h.tags⟩
    cases m' with
    | nil =>
      intro hinf
      have hnil := infix_nil.1 hinf
      rw [hnil] at hm
      exact absurd rfl (ne_nil_of_mem_markers hm)
    | cons b m' =>
      rintro ⟨x, y, heq⟩
      refine h.inside m hm (b :: m') hm' (b :: x) y (cons_ne_nil _ _) ?_
      rw [← show x ++ m ++ y = m' from heq]
      rfl
  · refine fun h => ⟨fun m hm m' hm' x y hx heq => h.1 m hm m' hm' ?_, h.2⟩
    cases x with
    | nil => exact absurd rfl hx
    | cons b x =>
      rw [heq]
      exact ⟨x, y, rfl⟩

instance : Decidable config.Separate := decidable_of_iff _ config.separate_iff.symm

/-- The visible part of a text.  `skip` bytes belong to a marker already seen. -/
def scan : Bool → Nat → Bytes → Bytes × Ending
  | inThink, _, [] => ([], if inThink then .inThink else .open)
  | inThink, skip + 1, _ :: rest => scan inThink skip rest
  | true, 0, b :: rest =>
    if thinkClose.isPrefixOf (b :: rest) then scan false (thinkClose.length - 1) rest else scan true 0 rest
  | false, 0, b :: rest =>
    if config.stops.any (·.isPrefixOf (b :: rest)) then ([], .stopped)
    else if config.stripThink && thinkOpen.isPrefixOf (b :: rest) then scan true (thinkOpen.length - 1) rest
    else if config.stripThink && thinkClose.isPrefixOf (b :: rest) then scan false (thinkClose.length - 1) rest
    else
      let r := scan false 0 rest
      (b :: r.1, r.2)

/-- **The reference.**  A text that stops, or that ends in a think span, keeps the part that is UTF-8. -/
def transform (text : Bytes) : Bytes × Bool :=
  let r := config.scan (config.stripThink && config.startedInThink) 0 text
  (if r.2 = .open then r.1 else r.1.take (utf8SafeEnd r.1), r.2 = .stopped)

variable {config} {text p rest more : Bytes}

/-! ## One marker -/

theorem scan_skip (inThink : Bool) : ∀ (n : Nat) (text : Bytes),
    config.scan inThink n text = config.scan inThink 0 (text.drop n)
  | 0, _ => rfl
  | _ + 1, [] => by simp only [drop_nil, scan]
  | n + 1, _ :: rest => by
    rw [drop_succ_cons, ← scan_skip inThink n rest, scan]

theorem scan_closed (rest : Bytes) : config.scan true 0 (thinkClose ++ rest) = config.scan false 0 rest := by
  show (if thinkClose.isPrefixOf (thinkClose ++ rest) = true then _ else _) = _
  rfl

theorem scan_stop {stop : Bytes} (h : stop ∈ config.stops) (rest : Bytes) :
    config.scan false 0 (stop ++ rest) = ([], .stopped) := by
  have hany : (config.stops.any (·.isPrefixOf (stop ++ rest))) = true :=
    any_eq_true.2 ⟨stop, h, List.isPrefixOf_iff_prefix.2 (prefix_append _ _)⟩
  cases hs : stop with
  | nil => exact absurd hs (ne_nil_of_mem_stops h)
  | cons b bs =>
    rw [hs] at hany
    rw [cons_append] at hany ⊢
    rw [scan, if_pos hany]

/-- No stop begins where a think tag does. -/
theorem Separate.no_stop (hs : config.Separate) (hstrip : config.stripThink = true) {tag : Bytes}
    (htag : tag ∈ [thinkOpen, thinkClose]) (rest : Bytes) :
    ¬ (config.stops.any (·.isPrefixOf (tag ++ rest))) = true := by
  rw [any_eq_true]
  rintro ⟨stop, hmem, hpre⟩
  obtain ⟨h₁, h₂⟩ := hs.tags hstrip stop hmem tag htag
  rcases List.prefix_or_prefix_of_prefix (List.isPrefixOf_iff_prefix.1 hpre) (prefix_append tag rest) with h | h
  · exact h₁ h
  · exact h₂ h

theorem Separate.scan_opened (hs : config.Separate) (hstrip : config.stripThink = true) (rest : Bytes) :
    config.scan false 0 (thinkOpen ++ rest) = config.scan true 0 rest := by
  have hno := hs.no_stop hstrip mem_cons_self rest
  have hpre : (config.stripThink && thinkOpen.isPrefixOf (thinkOpen ++ rest)) = true := by
    rw [hstrip, Bool.true_and]
    exact List.isPrefixOf_iff_prefix.2 (prefix_append _ _)
  show (if (config.stops.any (·.isPrefixOf (thinkOpen ++ rest))) = true then _ else _) = _
  rw [if_neg hno]
  show (if (config.stripThink && thinkOpen.isPrefixOf (thinkOpen ++ rest)) = true then _ else _) = _
  rw [if_pos hpre, scan_skip]
  rfl

theorem Separate.scan_orphan (hs : config.Separate) (hstrip : config.stripThink = true) (rest : Bytes) :
    config.scan false 0 (thinkClose ++ rest) = config.scan false 0 rest := by
  have hno := hs.no_stop hstrip (mem_cons_of_mem _ mem_cons_self) rest
  have hpre : (config.stripThink && thinkClose.isPrefixOf (thinkClose ++ rest)) = true := by
    rw [hstrip, Bool.true_and]
    exact List.isPrefixOf_iff_prefix.2 (prefix_append _ _)
  show (if (config.stops.any (·.isPrefixOf (thinkClose ++ rest))) = true then _ else _) = _
  rw [if_neg hno]
  show (if (config.stripThink && thinkOpen.isPrefixOf (thinkClose ++ rest)) = true then _
    else if (config.stripThink && thinkClose.isPrefixOf (thinkClose ++ rest)) = true then _ else _) = _
  rw [if_neg (by simp [thinkOpen, thinkClose, isPrefixOf]), if_pos hpre, scan_skip]
  rfl

/-! ## Text without markers -/

/-- No marker begins in `p` when `rest` follows it. -/
def Quiet (pats : List Bytes) (p rest : Bytes) : Prop :=
  ∀ x y, p = x ++ y → y ≠ [] → ∀ m ∈ pats, ¬ m <+: y ++ rest

theorem Quiet.tail {pats : List Bytes} {b : UInt8} (h : Quiet pats (b :: p) rest) : Quiet pats p rest :=
  fun x y heq => h (b :: x) y (by rw [heq]; rfl)

/-- What comes before the visible part of a scan. -/
def before (p : Bytes) (r : Bytes × Ending) : Bytes × Ending := (p ++ r.1, r.2)

theorem before_before (p q : Bytes) (r : Bytes × Ending) : before p (before q r) = before (p ++ q) r := by
  unfold before
  rw [append_assoc]

/-- **Prose is visible.** -/
theorem scan_prose : ∀ (p rest : Bytes), Quiet config.markers p rest →
    config.scan false 0 (p ++ rest) = before p (config.scan false 0 rest)
  | [], _, _ => rfl
  | b :: p, rest, h => by
    have hno := h [] (b :: p) rfl (cons_ne_nil _ _)
    have hstop : ¬ (config.stops.any (·.isPrefixOf (b :: (p ++ rest)))) = true := by
      rw [any_eq_true]
      rintro ⟨stop, hmem, hpre⟩
      exact hno stop (mem_markers.2 (.inl hmem)) (List.isPrefixOf_iff_prefix.1 hpre)
    have htag : ∀ tag ∈ [thinkOpen, thinkClose], ¬ (config.stripThink && tag.isPrefixOf (b :: (p ++ rest))) = true := by
      intro tag htag hand
      obtain ⟨hstrip, hpre⟩ := Bool.and_eq_true_iff.1 hand
      refine hno tag (mem_markers.2 (.inr ⟨hstrip, ?_⟩)) (List.isPrefixOf_iff_prefix.1 hpre)
      rw [mem_cons, mem_singleton] at htag
      exact htag
    rw [cons_append, scan, if_neg hstop, if_neg (htag _ mem_cons_self),
      if_neg (htag _ (mem_cons_of_mem _ mem_cons_self)), scan_prose p rest h.tail]
    rfl

/-- **What stands in a span is dropped.** -/
theorem scan_hidden : ∀ (p rest : Bytes), Quiet [thinkClose] p rest →
    config.scan true 0 (p ++ rest) = config.scan true 0 rest
  | [], _, _ => rfl
  | b :: p, rest, h => by
    have hno := h [] (b :: p) rfl (cons_ne_nil _ _) thinkClose mem_cons_self
    rw [cons_append] at hno ⊢
    rw [scan, if_neg fun hpre => hno (List.isPrefixOf_iff_prefix.1 hpre), scan_hidden p rest h.tail]

theorem scan_congr {config' : EosFilterConfig} (hstrip : config.stripThink = config'.stripThink)
    (hstops : ∀ m, m ∈ config.stops ↔ m ∈ config'.stops) : ∀ (inThink : Bool) (skip : Nat) (text : Bytes),
    config.scan inThink skip text = config'.scan inThink skip text
  | inThink, _, [] => by simp only [scan]
  | inThink, skip + 1, _ :: rest => by simp only [scan, scan_congr hstrip hstops inThink skip rest]
  | true, 0, b :: rest => by simp only [scan, scan_congr hstrip hstops _ _ rest]
  | false, 0, b :: rest => by
    have hany : ∀ t : Bytes, (config.stops.any (·.isPrefixOf t)) = config'.stops.any (·.isPrefixOf t) := fun t => by
      rw [Bool.eq_iff_iff, any_eq_true, any_eq_true]
      exact exists_congr fun m => and_congr_left fun _ => hstops m
    simp only [scan, hany, hstrip, scan_congr hstrip hstops _ _ rest]

end EosFilterConfig

end Hipfire.Eos

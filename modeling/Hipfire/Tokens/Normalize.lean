import Hipfire.Base.Utf8
/-!
# Normalize — prompt normalization

Four rewrites in a row, each skipped when a scan of the bytes does not find what it rewrites.  A stage whose scan finds
nothing leaves the text alone, so the pipeline is the plain composition; and what a stage removed, the later ones do not
bring back.  Texts are lists of characters, `Cow` is not distinguished.
-/
namespace Hipfire.Tokens

open List

def nbsp : Char := '\u00A0'

def isBlank (c : Char) : Bool := c == ' ' || c == '\t'

/-! ## The rewrites -/

/-- `collapse_newline_runs` after `nlRun` newlines. -/
def collapseFrom : Nat → List Char → List Char
  | _, [] => []
  | nlRun, c :: cs =>
    if c = '\n' then
      if nlRun + 1 ≤ 2 then '\n' :: collapseFrom (nlRun + 1) cs else collapseFrom (nlRun + 1) cs
    else c :: collapseFrom 0 cs

def collapseNewlineRuns (s : List Char) : List Char := collapseFrom 0 s

def normalizeLineEndings : List Char → List Char
  | [] => []
  | '\r' :: '\n' :: cs => '\n' :: normalizeLineEndings cs
  | c :: cs => (if c = '\r' then '\n' else c) :: normalizeLineEndings cs

def replaceNbspWithSpace (s : List Char) : List Char := s.map fun c => if c = nbsp then ' ' else c

/-- `strip_trailing_line_ws` with `pending` blanks held back. -/
def stripFrom : List Char → List Char → List Char
  | pending, [] => pending
  | pending, c :: cs =>
    if isBlank c then stripFrom (pending ++ [c]) cs
    else if c = '\n' then '\n' :: stripFrom [] cs
    else pending ++ c :: stripFrom [] cs

def stripTrailingLineWs (s : List Char) : List Char := stripFrom [] s

/-! ## The scans -/

/-- Three newlines in a row, after `nlRun` of them. -/
def newlineRun : Nat → List UInt8 → Bool
  | _, [] => false
  | nlRun, b :: bs => if b = 0x0A then decide (3 ≤ nlRun + 1) || newlineRun (nlRun + 1) bs else newlineRun 0 bs

/-- Two neighbours the test accepts. -/
def anyPair (test : UInt8 → UInt8 → Bool) : List UInt8 → Bool
  | a :: b :: bs => test a b || anyPair test (b :: bs)
  | _ => false

def needsNewlineCollapse (s : List Char) : Bool := newlineRun 0 (utf8 s)

def needsLineEndingNormalize (s : List Char) : Bool := (utf8 s).contains 0x0D

def needsNbspReplace (s : List Char) : Bool := anyPair (fun a b => a == 0xC2 && b == 0xA0) (utf8 s)

def needsTrailingWsStrip (s : List Char) : Bool :=
  anyPair (fun prev b => b == 0x0A && (prev == 0x20 || prev == 0x09)) (utf8 s)

def normalizePromptWith (s : List Char) (enabled : Bool) : List Char :=
  if !enabled then s
  else
    let cur := s
    let cur := if needsLineEndingNormalize cur then normalizeLineEndings cur else cur
    let cur := if needsNbspReplace cur then replaceNbspWithSpace cur else cur
    let cur := if needsTrailingWsStrip cur then stripTrailingLineWs cur else cur
    if needsNewlineCollapse cur then collapseNewlineRuns cur else cur

/-! ## A text in which the scans find nothing -/

/-- Not a blank in front of a newline. -/
def Apart (a b : Char) : Prop := isBlank a = true → b ≠ '\n'

/-- A text that is left alone. -/
structure Normal (s : List Char) : Prop where
  noReturn : '\r' ∉ s
  noNbsp : nbsp ∉ s
  noTrailing : s.IsChain Apart
  noRun : ¬['\n', '\n', '\n'] <:+: s

theorem anyPair_append {test : UInt8 → UInt8 → Bool} {a b : UInt8} (h : test a b = true) (tail : List UInt8) :
    ∀ front : List UInt8, anyPair test (front ++ a :: b :: tail) = true
  | [] => by rw [nil_append, anyPair, h, Bool.true_or]
  | [x] => by rw [singleton_append, anyPair, anyPair, h, Bool.true_or, Bool.or_true]
  | x :: y :: front => by
    rw [cons_append, cons_append, anyPair, ← cons_append, anyPair_append h tail (y :: front), Bool.or_true]

theorem newlineRun_append (tail : List UInt8) : ∀ (front : List UInt8) (nlRun : Nat),
    newlineRun nlRun (front ++ 0x0A :: 0x0A :: 0x0A :: tail) = true
  | [], nlRun => by simp [newlineRun]
  | b :: front, nlRun => by
    rw [cons_append, newlineRun]
    split
    · rw [newlineRun_append tail front, Bool.or_true]
    · exact newlineRun_append tail front 0

variable {s : List Char}

theorem noReturn_of_scan (h : needsLineEndingNormalize s = false) : '\r' ∉ s := by
  intro hmem
  obtain ⟨front, tail, rfl⟩ := append_of_mem hmem
  have hutf : utf8 ('\r' :: tail) = 0x0D :: utf8 tail := rfl
  simp [needsLineEndingNormalize, utf8_append, hutf] at h

theorem noNbsp_of_scan (h : needsNbspReplace s = false) : nbsp ∉ s := by
  intro hmem
  obtain ⟨front, tail, rfl⟩ := append_of_mem hmem
  have hutf : utf8 (nbsp :: tail) = 0xC2 :: 0xA0 :: utf8 tail := rfl
  rw [needsNbspReplace, utf8_append, hutf, anyPair_append (by rfl)] at h
  cases h

theorem noTrailing_of_scan (h : needsTrailingWsStrip s = false) : s.IsChain Apart := by
  rw [isChain_iff_forall_rel_of_append_cons_cons]
  rintro a b front tail rfl ha rfl
  rcases Bool.or_eq_true_iff.1 ha with ha | ha <;> rw [beq_iff_eq] at ha <;> subst ha
  · have hutf : utf8 (' ' :: '\n' :: tail) = 0x20 :: 0x0A :: utf8 tail := rfl
    rw [needsTrailingWsStrip, utf8_append, hutf, anyPair_append (by rfl)] at h
    cases h
  · have hutf : utf8 ('\t' :: '\n' :: tail) = 0x09 :: 0x0A :: utf8 tail := rfl
    rw [needsTrailingWsStrip, utf8_append, hutf, anyPair_append (by rfl)] at h
    cases h

theorem noRun_of_scan (h : needsNewlineCollapse s = false) : ¬['\n', '\n', '\n'] <:+: s := by
  rintro ⟨front, tail, rfl⟩
  have hutf : utf8 ('\n' :: '\n' :: '\n' :: tail) = 0x0A :: 0x0A :: 0x0A :: utf8 tail := rfl
  rw [needsNewlineCollapse, append_assoc, utf8_append, cons_append, cons_append, cons_append,
    nil_append, hutf, newlineRun_append] at h
  cases h

/-! ## What each rewrite leaves alone -/

theorem normalizeLineEndings_self : ∀ {s : List Char}, '\r' ∉ s → normalizeLineEndings s = s := by
  intro s
  induction s using normalizeLineEndings.induct with
  | case1 => exact fun _ => rfl
  | case2 cs ih => exact fun h => absurd mem_cons_self h
  | case3 c cs hne ih =>
    intro h
    obtain ⟨hc, hcs⟩ := not_or.1 (mt mem_cons.2 h)
    rw [normalizeLineEndings, if_neg (Ne.symm hc), ih hcs]
    exact hne

theorem replaceNbspWithSpace_self (h : nbsp ∉ s) : replaceNbspWithSpace s = s := by
  have hid : ∀ c ∈ s, (if c = nbsp then ' ' else c) = id c := fun c hc => if_neg fun heq : c = nbsp => h (heq ▸ hc)
  exact (map_congr_left hid).trans (map_id s)

variable {c : Char}

theorem blanks_concat {pending : List Char} (hp : ∀ p ∈ pending, isBlank p = true) (hc : isBlank c = true) :
    ∀ p ∈ pending ++ [c], isBlank p = true :=
  forall_mem_append.2 ⟨hp, forall_mem_singleton.2 hc⟩

theorem stripFrom_self : ∀ {s pending : List Char}, (∀ p ∈ pending, isBlank p = true) → (pending ++ s).IsChain Apart →
    stripFrom pending s = pending ++ s
  | [], pending, _, _ => (append_nil pending).symm
  | c :: cs, pending, hp, h => by
    rw [stripFrom]
    split
    · rename_i hc
      rw [stripFrom_self (blanks_concat hp hc) (by rwa [append_assoc]), append_assoc]
      rfl
    · have hnone : stripFrom [] cs = cs := stripFrom_self nofun h.right_of_append.tail
      split
      · rename_i hc
        subst hc
        obtain rfl : pending = [] := by
          rcases eq_nil_or_concat pending with hnil | ⟨front, p, rfl⟩
          · exact hnil
          · rw [concat_eq_append, append_assoc] at h
            have hap := isChain_iff_forall_rel_of_append_cons_cons.1 h rfl
            exact absurd rfl (hap (hp p (by simp)))
        rw [hnone, nil_append]
      · rw [hnone]

theorem stripTrailingLineWs_self (h : s.IsChain Apart) : stripTrailingLineWs s = s :=
  stripFrom_self nofun h

theorem collapseFrom_self : ∀ {s : List Char} {nlRun : Nat}, nlRun ≤ 2 →
    ¬['\n', '\n', '\n'] <:+: replicate nlRun '\n' ++ s → collapseFrom nlRun s = s
  | [], _, _, _ => rfl
  | c :: cs, nlRun, hle, h => by
    rw [collapseFrom]
    split
    · rename_i hc
      subst hc
      have hnext : replicate nlRun '\n' ++ '\n' :: cs = replicate (nlRun + 1) '\n' ++ cs := by
        rw [replicate_succ', append_assoc]
        rfl
      rw [hnext] at h
      rcases Nat.lt_or_ge nlRun 2 with hlt | hge
      · rw [if_pos (Nat.succ_le_of_lt hlt), collapseFrom_self hlt h]
      · obtain rfl : nlRun = 2 := by omega
        exact absurd (prefix_append _ cs).isInfix h
    · rw [collapseFrom_self (Nat.zero_le 2) fun hi => h (hi.trans ?_)]
      exact ((suffix_cons c cs).trans (suffix_append ..)).isInfix

theorem collapseNewlineRuns_self (h : ¬['\n', '\n', '\n'] <:+: s) : collapseNewlineRuns s = s :=
  collapseFrom_self (Nat.zero_le 2) h

/-! ## What each rewrite removes and keeps -/

theorem noReturn_normalizeLineEndings (s : List Char) : '\r' ∉ normalizeLineEndings s := by
  induction s using normalizeLineEndings.induct with
  | case1 => exact not_mem_nil
  | case2 cs ih => simpa [normalizeLineEndings] using ih
  | case3 c cs hne ih =>
    rw [normalizeLineEndings]
    · intro hmem
      rcases mem_cons.1 hmem with hc | hmem
      · split at hc
        · cases hc
        · exact ‹¬c = '\r'› hc.symm
      · exact ih hmem
    · exact hne

theorem mem_replaceNbspWithSpace (h : c ∈ replaceNbspWithSpace s) : c = ' ' ∨ c ∈ s ∧ c ≠ nbsp := by
  obtain ⟨a, ha, rfl⟩ := mem_map.1 h
  by_cases hn : a = nbsp
  · exact .inl (if_pos hn)
  · rw [if_neg hn]
    exact .inr ⟨ha, hn⟩

theorem stripFrom_sublist : ∀ (s pending : List Char), (stripFrom pending s).Sublist (pending ++ s)
  | [], pending => by rw [stripFrom, append_nil]
  | c :: cs, pending => by
    rw [stripFrom]
    split
    · have ih := stripFrom_sublist cs (pending ++ [c])
      rwa [append_assoc] at ih
    split
    · rename_i hc
      subst hc
      exact ((stripFrom_sublist cs []).cons_cons _).trans (sublist_append_right ..)
    · exact ((stripFrom_sublist cs []).cons_cons c).append_left pending

theorem isChain_blanks_append {cs : List Char} (hc : c ≠ '\n') (h : (c :: cs).IsChain Apart) :
    ∀ pending : List Char, (∀ p ∈ pending, isBlank p = true) → (pending ++ c :: cs).IsChain Apart
  | [], _ => h
  | [p], _ => .cons_cons (fun _ => hc) h
  | p :: q :: pending, hp => by
    have ih := isChain_blanks_append hc h (q :: pending) (forall_mem_cons.1 hp).2
    refine .cons_cons (fun _ => ?_) ih
    intro hq
    have := hp q (by simp)
    rw [hq] at this
    cases this

/-- **No blank is left in front of a newline.** -/
theorem noTrailing_stripFrom : ∀ (s pending : List Char), (∀ p ∈ pending, isBlank p = true) →
    (stripFrom pending s).IsChain Apart
  | [], pending, hp => by
    exact (@isChain_blanks_append ' ' [] (by decide) (.singleton _) pending hp).left_of_append
  | c :: cs, pending, hp => by
    rw [stripFrom]
    split
    · rename_i hc
      exact noTrailing_stripFrom cs _ (blanks_concat hp hc)
    rename_i hc
    have hcons : (c :: stripFrom [] cs).IsChain Apart := by
      have ih := noTrailing_stripFrom cs [] nofun
      cases hs : stripFrom [] cs with
      | nil => exact .singleton _
      | cons d ds => exact .cons_cons (fun hb => absurd hb hc) (hs ▸ ih)
    split
    · rename_i hnl
      exact hnl ▸ hcons
    · exact isChain_blanks_append ‹_› hcons pending hp

theorem collapseFrom_sublist : ∀ (s : List Char) (nlRun : Nat), (collapseFrom nlRun s).Sublist s
  | [], _ => Sublist.refl []
  | c :: cs, nlRun => by
    rw [collapseFrom]
    split
    · rename_i hc
      subst hc
      split
      · exact (collapseFrom_sublist cs _).cons_cons _
      · exact (collapseFrom_sublist cs _).cons _
    · exact (collapseFrom_sublist cs 0).cons_cons c

/-- Only newlines behind a newline go, so no character comes to stand in front of another newline. -/
theorem noTrailing_collapseFrom : ∀ {s : List Char} {x : Char} {nlRun : Nat}, (0 < nlRun → x = '\n') →
    (x :: s).IsChain Apart → (x :: collapseFrom nlRun s).IsChain Apart
  | [], _, _, _, h => h
  | c :: cs, x, nlRun, hx, h => by
    obtain ⟨hxc, hcs⟩ := isChain_cons_cons.1 h
    rw [collapseFrom]
    split
    · rename_i hc
      subst hc
      split
      · exact .cons_cons hxc (noTrailing_collapseFrom (fun _ => rfl) hcs)
      · have hn := hx (by omega)
        subst hn
        exact noTrailing_collapseFrom (fun _ => rfl) hcs
    · exact .cons_cons hxc (noTrailing_collapseFrom (fun h0 => absurd h0 (Nat.lt_irrefl 0)) hcs)

/-- **No run of three newlines is left**; behind `nlRun` newlines the text starts with fewer. -/
theorem noRun_collapseFrom : ∀ (s : List Char) (nlRun : Nat),
    ¬replicate (3 - min nlRun 2) '\n' <+: collapseFrom nlRun s ∧ ¬['\n', '\n', '\n'] <:+: collapseFrom nlRun s
  | [], nlRun => by
    refine ⟨fun h => ?_, fun h => by cases infix_nil.1 h⟩
    have hlen := h.length_le
    rw [length_replicate] at hlen
    simp only [collapseFrom, length_nil] at hlen
    omega
  | c :: cs, nlRun => by
    rw [collapseFrom]
    split
    · obtain ⟨hstart, hrun⟩ := noRun_collapseFrom cs (nlRun + 1)
      split
      · have hk : 3 - min nlRun 2 = (3 - min (nlRun + 1) 2) + 1 := by omega
        refine ⟨fun h => hstart ?_, fun h => ?_⟩
        · rw [hk, replicate_succ] at h
          exact (cons_prefix_cons.1 h).2
        rcases infix_cons_iff.1 h with h | h
        · have h2 : ['\n', '\n'] <+: collapseFrom (nlRun + 1) cs := (cons_prefix_cons.1 h).2
          refine hstart (IsPrefix.trans ?_ h2)
          have : nlRun = 0 ∨ nlRun = 1 := by omega
          rcases this with rfl | rfl
          · exact prefix_refl _
          · exact ⟨['\n'], rfl⟩
        · exact hrun h
      · have hk : min nlRun 2 = min (nlRun + 1) 2 := by omega
        rw [hk]
        exact ⟨hstart, hrun⟩
    · rename_i hc
      obtain ⟨-, hrun⟩ := noRun_collapseFrom cs 0
      refine ⟨fun h => ?_, fun h => ?_⟩
      · have hk : 3 - min nlRun 2 = (2 - min nlRun 2) + 1 := by omega
        rw [hk, replicate_succ] at h
        exact hc (cons_prefix_cons.1 h).1.symm
      · rcases infix_cons_iff.1 h with h | h
        · exact hc (cons_prefix_cons.1 h).1.symm
        · exact hrun h

/-! ## The characters that stay -/

/-- The characters no rewrite touches. -/
def isOther (c : Char) : Bool := !(c == '\r' || c == '\n' || c == ' ' || c == '\t' || c == nbsp)

theorem isOther_of_isBlank (h : isBlank c = true) : isOther c = false := by
  rcases Bool.or_eq_true_iff.1 h with h | h <;> rw [beq_iff_eq] at h <;> subst h <;> rfl

theorem filter_normalizeLineEndings (s : List Char) : (normalizeLineEndings s).filter isOther = s.filter isOther := by
  induction s using normalizeLineEndings.induct with
  | case1 => rfl
  | case2 cs ih =>
    rw [normalizeLineEndings, filter_cons, filter_cons, filter_cons, ih]
    rfl
  | case3 c cs hne ih =>
    rw [normalizeLineEndings, filter_cons, filter_cons, ih]
    · split
      · rename_i hc
        subst hc
        rfl
      · rfl
    · exact hne

theorem filter_replaceNbspWithSpace : ∀ s : List Char, (replaceNbspWithSpace s).filter isOther = s.filter isOther
  | [] => rfl
  | c :: cs => by
    have ih := filter_replaceNbspWithSpace cs
    unfold replaceNbspWithSpace at ih ⊢
    rw [map_cons, filter_cons, filter_cons, ih]
    split
    · rename_i hc
      subst hc
      rfl
    · rfl

theorem filter_stripFrom : ∀ (s pending : List Char), (∀ p ∈ pending, isBlank p = true) →
    (stripFrom pending s).filter isOther = s.filter isOther
  | [], pending, hp => filter_eq_nil_iff.2 fun p hmem => by simp [isOther_of_isBlank (hp p hmem)]
  | c :: cs, pending, hp => by
    rw [stripFrom]
    split
    · rename_i hc
      rw [filter_stripFrom cs _ (blanks_concat hp hc), filter_cons_of_neg (by simp [isOther_of_isBlank hc])]
    split
    · rename_i hc
      subst hc
      rw [filter_cons, filter_cons, filter_stripFrom cs [] nofun]
    · have hnil : pending.filter isOther = [] := filter_stripFrom [] pending hp
      rw [filter_append, hnil, nil_append, filter_cons, filter_cons, filter_stripFrom cs [] nofun]

theorem filter_collapseFrom : ∀ (s : List Char) (nlRun : Nat), (collapseFrom nlRun s).filter isOther = s.filter isOther
  | [], _ => rfl
  | c :: cs, nlRun => by
    rw [collapseFrom]
    split
    · rename_i hc
      subst hc
      split
      · rw [filter_cons, filter_cons, filter_collapseFrom cs]
      · rw [filter_collapseFrom cs]
        rfl
    · rw [filter_cons, filter_cons, filter_collapseFrom cs]

/-! ## The pipeline -/

/-- The four rewrites in a row. -/
def rewriteAll (s : List Char) : List Char :=
  collapseNewlineRuns (stripTrailingLineWs (replaceNbspWithSpace (normalizeLineEndings s)))

/-- A stage that is skipped would have changed nothing. -/
theorem ite_eq_stage {needs : Bool} {rewritten : List Char} (h : needs = false → rewritten = s) :
    (if needs then rewritten else s) = rewritten := by
  cases needs with
  | true => rfl
  | false => exact (h rfl).symm

theorem normalizePromptWith_eq (s : List Char) : normalizePromptWith s true = rewriteAll s := by
  unfold normalizePromptWith rewriteAll
  dsimp only
  rw [Bool.not_true, if_neg Bool.false_ne_true, ite_eq_stage fun h => normalizeLineEndings_self (noReturn_of_scan h),
    ite_eq_stage fun h => replaceNbspWithSpace_self (noNbsp_of_scan h),
    ite_eq_stage fun h => stripTrailingLineWs_self (noTrailing_of_scan h),
    ite_eq_stage fun h => collapseNewlineRuns_self (noRun_of_scan h)]

theorem rewriteAll_self (h : Normal s) : rewriteAll s = s := by
  unfold rewriteAll
  rw [normalizeLineEndings_self h.noReturn, replaceNbspWithSpace_self h.noNbsp, stripTrailingLineWs_self h.noTrailing,
    collapseNewlineRuns_self h.noRun]

/-- What a stage leaves out stays out. -/
theorem normal_rewriteAll (s : List Char) : Normal (rewriteAll s) := by
  have hmem : ∀ {c : Char}, c ∈ rewriteAll s → c ∈ replaceNbspWithSpace (normalizeLineEndings s) := fun h =>
    (stripFrom_sublist _ []).subset ((collapseFrom_sublist _ 0).subset h)
  refine ⟨fun h => ?_, fun h => ?_, ?_, (noRun_collapseFrom _ 0).2⟩
  · rcases mem_replaceNbspWithSpace (hmem h) with h | h
    · cases h
    · exact noReturn_normalizeLineEndings s h.1
  · rcases mem_replaceNbspWithSpace (hmem h) with h | h
    · exact absurd h (by decide)
    · exact h.2 rfl
  · have hstrip := noTrailing_stripFrom (replaceNbspWithSpace (normalizeLineEndings s)) [] nofun
    refine (@noTrailing_collapseFrom _ '\n' 0 (fun _ => rfl) ?_).tail
    cases hs : stripTrailingLineWs (replaceNbspWithSpace (normalizeLineEndings s)) with
    | nil => exact .singleton _
    | cons d ds => exact .cons_cons nofun (hs ▸ hstrip)

/-- **Prompt normalization is a projection.**  The result has no carriage return, no no-break space, no blank in front of a
newline and no run of three newlines; normalizing it again changes nothing; it is the four rewrites in a row whether or not
the scans skip some; and all other characters are kept in order. -/
theorem normalizePrompt_projection (s : List Char) : ∃ r, normalizePromptWith s true = r ∧
    ('\r' ∉ r ∧ nbsp ∉ r ∧ ¬[' ', '\n'] <:+: r ∧ ¬['\t', '\n'] <:+: r ∧ ¬['\n', '\n', '\n'] <:+: r) ∧
    normalizePromptWith r true = r ∧
    r = collapseNewlineRuns (stripTrailingLineWs (replaceNbspWithSpace (normalizeLineEndings s))) ∧
    r.filter isOther = s.filter isOther := by
  obtain ⟨r, hr⟩ : ∃ r, r = rewriteAll s := ⟨_, rfl⟩
  have hnormal : Normal r := hr ▸ normal_rewriteAll s
  have hapart : ∀ blank : Char, isBlank blank = true → ¬[blank, '\n'] <:+: r := by
    rintro blank hb ⟨front, tail, heq⟩
    rw [append_assoc] at heq
    exact isChain_iff_forall_rel_of_append_cons_cons.1 hnormal.noTrailing heq.symm hb rfl
  refine ⟨r, hr ▸ normalizePromptWith_eq s,
    ⟨hnormal.noReturn, hnormal.noNbsp, hapart ' ' rfl, hapart '\t' rfl, hnormal.noRun⟩, ?_, hr, ?_⟩
  · rw [normalizePromptWith_eq, rewriteAll_self hnormal]
  · rw [hr]
    unfold rewriteAll collapseNewlineRuns stripTrailingLineWs
    rw [filter_collapseFrom, filter_stripFrom _ [] nofun, filter_replaceNbspWithSpace, filter_normalizeLineEndings]

end Hipfire.Tokens

import Hipfire.Tokens.Scan
/-!
# Merging — the heap merge computes the naive merge

The invariant is stated at the cuts of the list of live slots: around slot `i`, with the live slots `a` before it and
`b` after it, the links are those of the list, the mergeable pair to the right has its entry in the heap, and an entry
of `i` with the slot's generation is that pair's.  A merge changes the sites of two slots, the one that absorbs and its
left neighbour, and both get a generation no entry has had.
-/
namespace Hipfire.Tokens

open Slots List Function

/-! ## Links -/

/-- What `next` holds in front of these slots. -/
def headLink : List Nat → Int
  | [] => -1
  | i :: _ => i

/-- What `prev` holds behind these slots. -/
def lastLink (a : List Nat) : Int := headLink a.reverse

theorem headLink_eq {b : List Nat} {j : Nat} (h : headLink b = j) : ∃ b', b = j :: b' := by
  cases b with
  | nil => simp [headLink] at h
  | cons x b' =>
    have : x = j := Int.ofNat.inj h
    exact ⟨b', by rw [this]⟩

variable {t : MergeTable} {s s' : Slots} {heap : List Entry} {e : Entry} {idx a b : List Nat} {n i l r x : Nat}

theorem lastLink_mem (h : lastLink a = i) : i ∈ a := by
  obtain ⟨b', hb⟩ := headLink_eq h
  exact mem_reverse.1 (hb ▸ mem_cons_self)

theorem headLink_append (c b b' : List Nat) (l : Nat) : headLink (c ++ l :: b) = headLink (c ++ l :: b') := by
  cases c <;> rfl

theorem lastLink_concat (a : List Nat) (i : Nat) : lastLink (a ++ [i]) = i := by
  simp [lastLink, headLink]

theorem lastLink_append_cons (a : List Nat) (k : Nat) (c : List Nat) : lastLink (a ++ k :: c) = lastLink (k :: c) := by
  rw [lastLink, lastLink, reverse_append, reverse_cons, append_assoc]
  exact headLink_append c.reverse _ _ k

theorem headLink_nonneg : 0 ≤ headLink b ↔ ∃ j, headLink b = (j : Nat) := by
  cases b with
  | nil | cons x b => simp [headLink]

/-! ## The invariant -/

/-- Slot `i` between the live slots `a` and `b`. -/
structure Site (t : MergeTable) (s : Slots) (a : List Nat) (i : Nat) (b : List Nat) : Prop where
  prev : s.prev i = lastLink a
  next : s.next i = headLink b
  queued : ∀ {j r}, headLink b = (j : Nat) → t.rank (s.syms i) (s.syms j) = some r → ⟨r, i, s.gen i⟩ ∈ s.heap
  valid : ∀ e ∈ s.heap, e.left = i → e.gen = s.gen i →
    ∃ j : Nat, headLink b = j ∧ t.rank (s.syms i) (s.syms j) = some e.rank

/-- The live slots are `idx`, out of `n`. -/
structure Live (t : MergeTable) (n : Nat) (s : Slots) (idx : List Nat) : Prop where
  increasing : idx.Pairwise (· < ·)
  bound : ∀ i ∈ idx, i < n
  alive : ∀ i, i < n → (s.dead i = false ↔ i ∈ idx)
  sites : ∀ {a i b}, idx = a ++ i :: b → Site t s a i b
  stale : ∀ e ∈ s.heap, e.left < n ∧ e.gen ≤ s.gen e.left
  -- every merge takes a slot away and raises a generation by at most one
  gens : ∀ i, s.gen i + idx.length ≤ n

/-! ## Popping -/

theorem Site.pop (h : Site t s a i b) (hpop : popMin s.heap = some (e, heap)) (hne : ¬ (e.left = i ∧ e.gen = s.gen i)) :
    Site t { s with heap := heap } a i b where
  prev := h.prev
  next := h.next
  queued {j r} hj hr := by
    refine popMin_keeps hpop (h.queued hj hr) (fun heq => hne ?_)
    rw [← heq]
    exact ⟨rfl, rfl⟩
  valid e' he' := h.valid e' (popMin_rest hpop he')

theorem Live.pop (h : Live t n s idx) (hpop : popMin s.heap = some (e, heap))
    (hstale : fresh { s with heap := heap } e = false) :
    Live t n { s with heap := heap } idx where
  increasing := h.increasing
  bound := h.bound
  alive := h.alive
  sites {a i b} hidx := by
    refine (h.sites hidx).pop hpop ?_
    rintro ⟨rfl, hgen⟩
    have hmem : e.left ∈ idx := by rw [hidx]; simp
    obtain ⟨j, hj, -⟩ := (h.sites hidx).valid e (popMin_mem hpop) rfl hgen
    have hdead := (h.alive _ (h.bound _ hmem)).2 hmem
    have hnext := (h.sites hidx).next
    rw [hj] at hnext
    simp [fresh, hdead, hgen, hnext] at hstale
  stale e' he' := h.stale e' (popMin_rest hpop he')
  gens := h.gens

theorem Live.popped (h : Live t n s idx) (hpop : popMin s.heap = some (e, heap))
    (hfresh : fresh { s with heap := heap } e = true) :
    ∃ a r b, idx = a ++ e.left :: r :: b ∧ s.next e.left = r ∧ t.rank (s.syms e.left) (s.syms r) = some e.rank := by
  simp only [fresh, Bool.and_eq_true, Bool.not_eq_true', beq_iff_eq, decide_eq_true_eq] at hfresh
  obtain ⟨⟨hdead, hgen⟩, -⟩ := hfresh
  have hmem : e.left ∈ idx := (h.alive _ (h.stale e (popMin_mem hpop)).1).1 hdead
  obtain ⟨a, b, hidx⟩ := append_of_mem hmem
  have hsite := h.sites hidx
  obtain ⟨r, hr, hrank⟩ := hsite.valid e (popMin_mem hpop) rfl hgen.symm
  obtain ⟨b', rfl⟩ := headLink_eq hr
  exact ⟨a, r, b', hidx, hsite.next.trans hr, hrank⟩

/-! ## Absorbing -/

theorem mem_pushPair : e ∈ (s.pushPair t l r).heap ↔
      e ∈ s.heap ∨ (e.left = l ∧ e.gen = s.gen l ∧ t.rank (s.syms l) (s.syms r) = some e.rank) := by
  obtain ⟨rank, left, gen⟩ := e
  unfold pushPair
  split
  · rename_i rank' hrank
    simp only [mem_cons, Entry.mk.injEq, hrank, Option.some.injEq]
    tauto
  · rename_i hrank
    simp [hrank]

theorem pushPair_eq (t : MergeTable) (s : Slots) (l r : Nat) : s.pushPair t l r = { s with heap := (s.pushPair t l r).heap } := by
  unfold pushPair
  split <;> rfl

/-- The state after `l` absorbed `r`, with the live slots `a` before `l` and `b` after `r`, and `x` in `l`. -/
structure Absorbed (t : MergeTable) (s s' : Slots) (a : List Nat) (l r : Nat) (b : List Nat) (x : Nat) : Prop where
  syms : ∀ i, s'.syms i = if i = l then x else s.syms i
  dead : ∀ i, s'.dead i = if i = r then true else s.dead i
  prev : ∀ i : Nat, s'.prev i = if headLink b = i then (l : Int) else s.prev i
  next : ∀ i, s'.next i = if i = l then headLink b else s.next i
  gen : ∀ i : Nat, s'.gen i = if i = l ∨ lastLink a = i then s.gen i + 1 else s.gen i
  heap : ∀ e, e ∈ s'.heap ↔ e ∈ s.heap ∨
    (lastLink a = e.left ∧ e.gen = s'.gen e.left ∧ t.rank (s'.syms e.left) x = some e.rank) ∨
    (e.left = l ∧ e.gen = s'.gen l ∧ ∃ j : Nat, headLink b = j ∧ t.rank x (s'.syms j) = some e.rank)

theorem splice_eq (t : MergeTable) (s : Slots) (rank l r : Nat) (b : List Nat) (hl : l < 2147483648)
    (hnr : s.next r = headLink b) : s.splice t rank l r =
      { syms := update s.syms l (t.merged rank)
        dead := update s.dead r true
        gen := update s.gen l (wrappingInc (s.gen l))
        next := update s.next l (headLink b)
        prev := fun i => if headLink b = i then l else s.prev i
        heap := s.heap } := by
  unfold splice bump
  dsimp only
  rw [hnr]
  cases b with
  | nil => simp [headLink]
  | cons j b =>
    simp only [headLink, Int.natCast_nonneg, if_true, Int.toNat_natCast, asI32_of_lt hl]
    congr 1
    funext i
    by_cases hi : i = j
    · simp [hi]
    · have : ¬ (j : Int) = i := by omega
      simp [update_of_ne hi, this]

theorem pushLeft_eq (hprev : s.prev l = lastLink a) : s.pushLeft t l =
      { s with gen := fun i => if lastLink a = i then wrappingInc (s.gen i) else s.gen i, heap := (s.pushLeft t l).heap } := by
  unfold pushLeft
  rw [hprev]
  split
  · rename_i hpl
    obtain ⟨pl, hpl⟩ := headLink_nonneg.1 hpl
    rw [show lastLink a = (pl : Int) from hpl, Int.toNat_natCast, pushPair_eq]
    simp only [bump, mk.injEq, true_and, and_true]
    funext i
    by_cases hi : i = pl
    · simp [hi]
    · have : ¬ (pl : Int) = i := by omega
      simp [update_of_ne hi, this]
  · rename_i hpl
    have : ∀ i : Nat, ¬ lastLink a = i := fun i hi => hpl (headLink_nonneg.2 ⟨i, hi⟩)
    simp [this]

theorem mem_pushLeft (hprev : s.prev l = lastLink a) :
    e ∈ (s.pushLeft t l).heap ↔ e ∈ s.heap ∨ (lastLink a = e.left ∧ e.gen = wrappingInc (s.gen e.left) ∧
      t.rank (s.syms e.left) (s.syms l) = some e.rank) := by
  unfold pushLeft
  rw [hprev]
  split
  · rename_i hpl
    obtain ⟨pl, hpl⟩ := headLink_nonneg.1 hpl
    rw [show lastLink a = (pl : Int) from hpl, Int.toNat_natCast, mem_pushPair]
    refine or_congr Iff.rfl ⟨?_, ?_⟩
    · rintro ⟨rfl, hg, hr⟩
      exact ⟨rfl, by simpa [bump] using hg, hr⟩
    · rintro ⟨hle, hg, hr⟩
      obtain rfl : pl = e.left := Int.ofNat.inj hle
      exact ⟨rfl, by simpa [bump] using hg, hr⟩
  · rename_i hpl
    have : ∀ i : Nat, ¬ lastLink a = i := fun i hi => hpl (headLink_nonneg.2 ⟨i, hi⟩)
    simp [this]

theorem pushRight_eq (t : MergeTable) (s : Slots) (l : Nat) : s.pushRight t l = { s with heap := (s.pushRight t l).heap } := by
  unfold pushRight
  split
  · exact pushPair_eq ..
  · rfl

theorem mem_pushRight (hnext : s.next l = headLink b) :
    e ∈ (s.pushRight t l).heap ↔ e ∈ s.heap ∨ (e.left = l ∧ e.gen = s.gen l ∧
      ∃ j : Nat, headLink b = j ∧ t.rank (s.syms l) (s.syms j) = some e.rank) := by
  unfold pushRight
  rw [hnext]
  cases b with
  | nil => simp [headLink]
  | cons j b => simp [headLink, mem_pushPair]

theorem absorb_spec {rank : Nat} (hnd : (a ++ l :: r :: b).Nodup) (hl : l < 2147483648) (hgen : ∀ i, s.gen i + 1 ≤ n)
    (hn : n < 2147483648) (hprev : s.prev l = lastLink a) (hnr : s.next r = headLink b) :
    Absorbed t s (s.absorb t rank l r) a l r b (t.merged rank) := by
  have hla : l ∉ a := fun h => (nodup_append.1 hnd).2.2 l h l mem_cons_self rfl
  have hlb : l ∉ b := fun h => by simp [nodup_append, h] at hnd
  have hal : ¬ lastLink a = l := fun h => hla (lastLink_mem h)
  have hbl : ¬ headLink b = l := fun h => by
    obtain ⟨b', rfl⟩ := headLink_eq h
    simp at hlb
  have hinc : ∀ i, wrappingInc (s.gen i) = s.gen i + 1 := fun i => by
    have := hgen i
    exact Nat.mod_eq_of_lt (by simp only [u32Max]; omega)
  have hsplice := splice_eq t s rank l r b hl hnr
  have hprev' : (s.splice t rank l r).prev l = lastLink a := by rw [hsplice]; simp [hbl, hprev]
  have hleft := pushLeft_eq (t := t) hprev'
  have hnext' : ((s.splice t rank l r).pushLeft t l).next l = headLink b := by rw [hleft, hsplice]; simp
  have heq : s.absorb t rank l r = _ := pushRight_eq t _ l
  have hgen' : ∀ i : Nat, (s.absorb t rank l r).gen i = if i = l ∨ lastLink a = i then s.gen i + 1 else s.gen i := by
    intro i
    rw [heq, hleft, hsplice]
    by_cases hi : i = l
    · subst hi; simp [hal, hinc]
    · simp [hi, hinc]
  refine ⟨?_, ?_, ?_, ?_, hgen', ?_⟩
  · intro i
    rw [heq, hleft, hsplice]
    exact update_apply ..
  · intro i
    rw [heq, hleft, hsplice]
    exact update_apply ..
  · intro i
    rw [heq, hleft, hsplice]
  · intro i
    rw [heq, hleft, hsplice]
    exact update_apply ..
  · intro e
    have hsyms : (s.absorb t rank l r).syms = (s.splice t rank l r).syms := by rw [heq, hleft]
    have hmerged : (s.splice t rank l r).syms l = t.merged rank := by rw [hsplice]; simp
    rw [hsyms, absorb, mem_pushRight hnext', mem_pushLeft hprev', or_assoc]
    refine or_congr (by rw [hsplice]) (or_congr ?_ ?_)
    · refine and_congr_right fun hpl => ?_
      have hne : e.left ≠ l := fun h => hal (h ▸ hpl)
      have hg : wrappingInc ((s.splice t rank l r).gen e.left) = (s.absorb t rank l r).gen e.left := by
        rw [hgen', hsplice]
        simp [hne, hpl, hinc]
      rw [hg, hmerged]
      rfl
    · have hg : ((s.splice t rank l r).pushLeft t l).gen l = (s.absorb t rank l r).gen l := by rw [heq]
      have hs : ((s.splice t rank l r).pushLeft t l).syms = (s.splice t rank l r).syms := by rw [hleft]
      rw [hg, hs, hmerged]
      rfl

/-! ## One merge keeps the invariant -/

theorem Absorbed.site_kept (h : Absorbed t s s' a l r b x) {a₀ a₁ b₀ b₁ : List Nat} (hsite : Site t s a₀ i b₀) (hil : i ≠ l)
    (hai : ¬ lastLink a = i) (hbl : ¬ headLink b₀ = l) (hprev : s'.prev i = lastLink a₁) (hnext : headLink b₀ = headLink b₁) :
    Site t s' a₁ i b₁ := by
  have hsi : s'.syms i = s.syms i := by rw [h.syms, if_neg hil]
  have hgi : s'.gen i = s.gen i := by rw [h.gen, if_neg (by simp [hil, hai])]
  have hsj : ∀ {j : Nat}, headLink b₁ = j → s'.syms j = s.syms j := fun {j} hj => by
    rw [h.syms, if_neg]
    rintro rfl
    exact hbl (hnext.trans hj)
  refine ⟨hprev, by rw [h.next, if_neg hil, hsite.next, hnext], fun {j rank} hj hr => ?_, fun e he hei hg => ?_⟩
  · rw [hsi, hsj hj] at hr
    rw [hgi]
    exact (h.heap _).2 (.inl (hsite.queued (hnext.trans hj) hr))
  · rcases (h.heap e).1 he with he | ⟨hl, -⟩ | ⟨hel, -⟩
    · obtain ⟨j, hj, hr⟩ := hsite.valid e he hei (hg.trans hgi)
      rw [hnext] at hj
      exact ⟨j, hj, by rwa [hsi, hsj hj]⟩
    · exact absurd (hei ▸ hl) hai
    · exact absurd (hei.symm.trans hel) hil

theorem Absorbed.site_before (h : Absorbed t s s' a l r b x) (hnd : (a ++ l :: r :: b).Nodup)
    (hstale : ∀ e ∈ s.heap, e.gen ≤ s.gen e.left) {a' c : List Nat} (ha : a = a' ++ i :: c)
    (hsite : Site t s a' i (c ++ l :: r :: b)) : Site t s' a' i (c ++ l :: b) := by
  subst ha
  have hil : i ≠ l := by rintro rfl; simp [nodup_append] at hnd
  have hib : ¬ headLink b = i := fun hb => by
    obtain ⟨b', rfl⟩ := headLink_eq hb
    simp [nodup_append] at hnd
  have hprev : s'.prev i = lastLink a' := by rw [h.prev, if_neg hib, hsite.prev]
  -- the slot just before `l` has a new right-hand symbol, the others keep their pair
  cases c with
  | nil =>
    have hl : lastLink (a' ++ [i]) = i := lastLink_concat ..
    refine ⟨hprev, by rw [h.next, if_neg hil, hsite.next]; rfl, fun {j rank} hj hr => ?_, fun e he hei hg => ?_⟩
    · obtain rfl : l = j := Int.ofNat.inj hj
      refine (h.heap _).2 (.inr (.inl ⟨hl, rfl, ?_⟩))
      rwa [h.syms l, if_pos rfl] at hr
    · rcases (h.heap e).1 he with he | ⟨-, -, hr⟩ | ⟨hel, -⟩
      · have := hstale e he
        rw [h.gen, if_pos (.inr hl)] at hg
        rw [hei] at this
        omega
      · refine ⟨l, rfl, ?_⟩
        rwa [h.syms l, if_pos rfl, ← hei]
      · exact absurd (hei.symm.trans hel) hil
  | cons k c' =>
    refine h.site_kept hsite hil (fun hl => ?_) (fun hk => ?_) hprev rfl
    · rw [show a' ++ i :: k :: c' = (a' ++ [i]) ++ k :: c' by simp, lastLink_append_cons] at hl
      have := lastLink_mem hl
      simp only [nodup_append, nodup_cons] at hnd
      exact hnd.1.2.1.1 this
    · obtain rfl : k = l := Int.ofNat.inj hk
      simp [nodup_append] at hnd

theorem Absorbed.site_at (h : Absorbed t s s' a l r b x) (hnd : (a ++ l :: r :: b).Nodup)
    (hstale : ∀ e ∈ s.heap, e.gen ≤ s.gen e.left) (hprev : s.prev l = lastLink a) : Site t s' a l b := by
  have hbl : ¬ headLink b = l := fun hb => by
    obtain ⟨b', rfl⟩ := headLink_eq hb
    simp [nodup_append] at hnd
  have hal : ¬ lastLink a = l := fun hl => (nodup_append.1 hnd).2.2 l (lastLink_mem hl) l mem_cons_self rfl
  have hsl : s'.syms l = x := by rw [h.syms, if_pos rfl]
  constructor
  · rw [h.prev, if_neg hbl, hprev]
  · rw [h.next, if_pos rfl]
  · intro j rank hj hr
    exact (h.heap _).2 (.inr (.inr ⟨rfl, rfl, j, hj, hsl ▸ hr⟩))
  · intro e he hel hg
    rcases (h.heap e).1 he with he | ⟨hl, -⟩ | ⟨-, -, j, hj, hr⟩
    · have := hstale e he
      rw [h.gen, if_pos (.inl rfl)] at hg
      rw [hel] at this
      omega
    · exact absurd (hel ▸ hl) hal
    · exact ⟨j, hj, hsl.symm ▸ hr⟩

theorem Absorbed.site_after (h : Absorbed t s s' a l r b x) (hnd : (a ++ l :: r :: b).Nodup)
    {b' c : List Nat} (hb : b = c ++ i :: b') (hsite : Site t s (a ++ l :: r :: c) i b') :
    Site t s' (a ++ l :: c) i b' := by
  subst hb
  have hil : i ≠ l := by rintro rfl; simp [nodup_append] at hnd
  have hai : ¬ lastLink a = i := fun hl => by
    have := (nodup_append.1 hnd).2.2 i (lastLink_mem hl) i
    simp at this
  refine h.site_kept hsite hil hai (fun hj => ?_) ?_ rfl
  · obtain ⟨b'', rfl⟩ := headLink_eq hj
    simp [nodup_append] at hnd
  · rw [h.prev]
    cases c with
    | nil => simp [headLink, lastLink_concat]
    | cons k c' =>
      have hki : ¬ ((k : Int) = i) := by
        intro hki
        obtain rfl : k = i := Int.ofNat.inj hki
        simp [nodup_append] at hnd
      rw [cons_append, headLink, if_neg hki, hsite.prev, show a ++ l :: r :: k :: c' = (a ++ [l, r]) ++ k :: c' by simp,
        show a ++ l :: k :: c' = (a ++ [l]) ++ k :: c' by simp, lastLink_append_cons, lastLink_append_cons]

/-- **A merge of the popped pair keeps the invariant**, with one live slot less. -/
theorem Live.absorb (h : Live t n s (a ++ e.left :: r :: b)) (hn : n < 2147483648)
    (hpop : popMin s.heap = some (e, heap)) :
    Live t n (({ s with heap := heap } : Slots).absorb t e.rank e.left r) (a ++ e.left :: b) ∧
    (a ++ e.left :: b).map (({ s with heap := heap } : Slots).absorb t e.rank e.left r).syms =
      replacePair (t.merged e.rank) a.length ((a ++ e.left :: r :: b).map s.syms) := by
  have hnd : (a ++ e.left :: r :: b).Nodup := h.increasing.imp (fun h => Nat.ne_of_lt h)
  have hl : e.left < n := h.bound _ (by simp)
  have hgen : ∀ i, s.gen i + 1 ≤ n := fun i => by
    have := h.gens i
    simp only [length_append, length_cons] at this
    omega
  have hl' := h.sites rfl
  have hr' : Site t s (a ++ [e.left]) r b := h.sites (by simp)
  have hab : Absorbed t { s with heap := heap } (({ s with heap := heap } : Slots).absorb t e.rank e.left r) a e.left r b
      (t.merged e.rank) := absorb_spec hnd (by omega) hgen hn hl'.prev hr'.next
  have hstale : ∀ e' ∈ heap, e'.gen ≤ s.gen e'.left := fun e' he' => (h.stale e' (popMin_rest hpop he')).2
  generalize (({ s with heap := heap } : Slots).absorb t e.rank e.left r) = s' at hab ⊢
  have hgrow : ∀ i, s.gen i ≤ s'.gen i ∧ s'.gen i ≤ s.gen i + 1 := fun i => by
    rw [hab.gen]
    split <;> exact ⟨by simp, by simp⟩
  have hmem : ∀ {i}, i ∈ a ++ e.left :: r :: b ↔ i = r ∨ i ∈ a ++ e.left :: b := fun {i} => by
    simp only [mem_append, mem_cons]
    tauto
  have hr : r ∉ a ++ e.left :: b := by
    simp only [nodup_append, nodup_cons, mem_cons] at hnd
    simp only [mem_append, mem_cons]
    rintro (hra | rfl | hrb)
    · exact hnd.2.2 r hra r (.inr (.inl rfl)) rfl
    · exact hnd.2.1.1 (.inl rfl)
    · exact hnd.2.1.2.1 hrb
  refine ⟨⟨?_, ?_, ?_, ?_, ?_, ?_⟩, ?_⟩
  · refine h.increasing.sublist ?_
    exact (Sublist.refl a).append ((sublist_cons_self r b).cons_cons e.left)
  · exact fun i hi => h.bound i (hmem.2 (.inr hi))
  · intro i hi
    rw [hab.dead]
    split
    · rename_i hir
      subst hir
      simpa using hr
    · rename_i hir
      rw [show ({ s with heap := heap } : Slots).dead = s.dead from rfl, h.alive i hi, hmem, or_iff_right hir]
  · intro a' i b' hidx
    rcases cut_cases hidx.symm with ⟨c, ha, rfl⟩ | ⟨rfl, rfl, rfl⟩ | ⟨c, rfl, hb⟩
    · have hi : i ≠ e.left := by rintro rfl; simp [ha, nodup_append] at hnd
      refine hab.site_before hnd hstale ha ((h.sites ?_).pop hpop (fun he => hi he.1.symm))
      simp [ha]
    · exact hab.site_at hnd hstale hl'.prev
    · have hi : i ≠ e.left := by rintro rfl; simp [hb, nodup_append] at hnd
      refine hab.site_after hnd hb ((h.sites ?_).pop hpop (fun he => hi he.1.symm))
      simp [hb]
  · intro e' he'
    rcases (hab.heap e').1 he' with he' | ⟨hpl, hg, -⟩ | ⟨hel, hg, -⟩
    · obtain ⟨hb, hg⟩ := h.stale e' (popMin_rest hpop he')
      exact ⟨hb, hg.trans (hgrow _).1⟩
    · exact ⟨h.bound _ (mem_append_left _ (lastLink_mem hpl)), hg.le⟩
    · exact ⟨hel ▸ hl, by rw [hel]; exact hg.le⟩
  · intro i
    have := h.gens i
    have := (hgrow i).2
    simp only [length_append, length_cons] at *
    omega
  · have hsame : ∀ i ∈ a ++ b, s'.syms i = s.syms i := fun i hi => by
      rw [hab.syms, if_neg]
      rintro rfl
      simp only [nodup_append, nodup_cons, mem_cons] at hnd
      rcases mem_append.1 hi with hi | hi
      · exact hnd.2.2 _ hi _ (.inl rfl) rfl
      · exact hnd.2.1.1 (.inr hi)
    have ha : a.map s'.syms = a.map s.syms := map_congr_left fun i hi => hsame i (mem_append_left _ hi)
    have hb : b.map s'.syms = b.map s.syms := map_congr_left fun i hi => hsame i (mem_append_right _ hi)
    have hx : s'.syms e.left = t.merged e.rank := by rw [hab.syms, if_pos rfl]
    simp [replacePair, ha, hb, hx, drop_append, drop_eq_nil_of_le]

/-! ## The loop -/

/-- The scan of the live symbols finds the pair that is popped. -/
theorem Live.lowest (h : Live t n s (a ++ e.left :: r :: b)) (hpop : popMin s.heap = some (e, heap))
    (hrank : t.rank (s.syms e.left) (s.syms r) = some e.rank) :
    lowestPair t ((a ++ e.left :: r :: b).map s.syms) = some (e.rank, a.length) := by
  have := lowestPair_unique (p := a.map s.syms) (q := b.map s.syms) hrank
  simp only [length_map, map_append, map_cons] at this ⊢
  refine this fun {p' x' y' q' r'} hcut hr' => ?_
  -- the other pair stands in the heap, at the slot its left symbol is in
  obtain ⟨p, q, hidx, hp, hq⟩ : ∃ p q, a ++ e.left :: r :: b = p ++ q ∧ p.map s.syms = p' ∧ q.map s.syms = x' :: y' :: q' := by
    have : (a ++ e.left :: r :: b).map s.syms = p' ++ x' :: y' :: q' := by simpa using hcut
    exact map_eq_append_iff.1 this
  obtain ⟨i, j, q₂, rfl, rfl, rfl⟩ : ∃ i j q₂, q = i :: j :: q₂ ∧ s.syms i = x' ∧ s.syms j = y' := by
    match q, hq with
    | i :: j :: q₂, hq =>
      simp only [map_cons, cons.injEq] at hq
      exact ⟨i, j, q₂, rfl, hq.1, hq.2.1⟩
  have hin := (h.sites hidx).queued (j := j) rfl hr'
  have hle := (Entry.le_iff ..).1 (popMin_least hpop _ hin)
  dsimp only at hle
  rcases hle with hlt | ⟨heq, hleft⟩
  · exact .inl hlt
  refine .inr ⟨heq, ?_⟩
  -- slots increase along the list, so a slot no further left stands no further left in it
  rcases cut_cases hidx with ⟨c, rfl, -⟩ | ⟨rfl, -⟩ | ⟨c, rfl, -⟩
  · rw [← hp, length_map, length_append]
    exact Nat.le_add_right _ _
  · rw [← hp, length_map]
  · have hlt : i < e.left := (pairwise_append.1 h.increasing).2.2 i (by simp) e.left mem_cons_self
    omega

theorem Live.done (h : Live t n s idx) (hheap : s.heap = []) : lowestPair t (idx.map s.syms) = none := by
  cases hlow : lowestPair t (idx.map s.syms) with
  | none => rfl
  | some found =>
    obtain ⟨⟨p', x', y', q', hcut, -, hr⟩, -⟩ := lowestPair_some hlow
    obtain ⟨p, q, hidx, -, hq⟩ := map_eq_append_iff.1 hcut
    match q, hq with
    | i :: j :: q₂, hq =>
      obtain ⟨rfl, rfl, -⟩ := hq
      have hin := (h.sites hidx).queued (j := j) rfl hr
      rw [hheap] at hin
      cases hin

theorem length_heap_pushPair (t : MergeTable) (s : Slots) (l r : Nat) :
    (s.pushPair t l r).heap.length ≤ s.heap.length + 1 := by
  unfold pushPair
  split <;> simp

theorem length_heap_absorb (t : MergeTable) (s : Slots) (rank l r : Nat) :
    (s.absorb t rank l r).heap.length ≤ s.heap.length + 2 := by
  have hsplice : (s.splice t rank l r).heap = s.heap := by
    unfold splice bump
    dsimp only
    split <;> rfl
  have hleft : ((s.splice t rank l r).pushLeft t l).heap.length ≤ s.heap.length + 1 := by
    unfold pushLeft
    split
    · rw [← hsplice]
      exact length_heap_pushPair ..
    · rw [hsplice]
      exact Nat.le_succ _
  unfold absorb pushRight
  split
  · exact (length_heap_pushPair ..).trans (Nat.succ_le_succ hleft)
  · exact hleft.trans (Nat.le_succ _)

/-- **One turn of the loop**: the invariant is kept, the live symbols have the same normal form, and either the heap or
the list got smaller. -/
theorem Live.step (h : Live t n s idx) (hn : n < 2147483648) (hstep : mergeStep t s = some s') :
    ∃ idx', Live t n s' idx' ∧ naive t (idx'.map s'.syms) = naive t (idx.map s.syms) ∧
      s'.heap.length + 2 * idx'.length < s.heap.length + 2 * idx.length := by
  unfold mergeStep at hstep
  split at hstep
  · cases hstep
  rename_i e heap hpop
  have hlen := popMin_length hpop
  dsimp only at hstep
  split at hstep
  · rename_i hfresh
    obtain ⟨a, r, b, rfl, hnext, hrank⟩ := h.popped hpop hfresh
    rw [hnext, Int.toNat_natCast] at hstep
    cases hstep
    obtain ⟨hlive, hmap⟩ := h.absorb hn hpop
    refine ⟨a ++ e.left :: b, hlive, ?_, ?_⟩
    · rw [hmap, naive_eq t ((a ++ e.left :: r :: b).map s.syms), h.lowest hpop hrank]
    · have := length_heap_absorb t { s with heap := heap } e.rank e.left r
      simp only [length_append, length_cons] at this ⊢
      omega
  · rename_i hstale
    cases hstep
    exact ⟨idx, h.pop hpop (by simpa using hstale), rfl, by simp only; omega⟩

/-- **The loop ends with the normal form on the list.** -/
theorem Live.run (hn : n < 2147483648) : ∀ {fuel : Nat} {s : Slots} {idx : List Nat},
    Live t n s idx → s.heap.length + 2 * idx.length < fuel →
    ∃ s' idx', mergeLoop t fuel s = some s' ∧ Live t n s' idx' ∧ idx'.map s'.syms = naive t (idx.map s.syms)
  | fuel + 1, s, idx, h, hfuel => by
    unfold mergeLoop
    cases hstep : mergeStep t s with
    | none =>
      have hheap : s.heap = [] := by
        unfold mergeStep at hstep
        split at hstep
        · rename_i hpop
          exact popMin_eq_none hpop
        · dsimp only at hstep
          split at hstep <;> cases hstep
      refine ⟨s, idx, rfl, h, ?_⟩
      rw [naive_eq, h.done hheap]
    | some s₁ =>
      obtain ⟨idx₁, h₁, hnaive, hless⟩ := h.step hn hstep
      obtain ⟨s', idx', hloop, hlive, hmap⟩ := Live.run hn h₁ (show _ < fuel by omega)
      exact ⟨s', idx', hloop, hlive, hmap.trans hnaive⟩

/-! ## Seeding and walking -/

theorem seed_eq (t : MergeTable) (s : Slots) : ∀ k, ∃ heap,
    (range k).foldl (fun s i => s.pushPair t i (i + 1)) s = { s with heap := heap }
  | 0 => ⟨s.heap, rfl⟩
  | k + 1 => by
    obtain ⟨heap, h⟩ := seed_eq t s k
    rw [range_succ, foldl_append, foldl_cons, foldl_nil, h, pushPair_eq]
    exact ⟨_, rfl⟩

theorem mem_seed : ∀ k, e ∈ ((range k).foldl (fun s i => s.pushPair t i (i + 1)) s).heap ↔ e ∈ s.heap ∨
      (e.left < k ∧ e.gen = s.gen e.left ∧ t.rank (s.syms e.left) (s.syms (e.left + 1)) = some e.rank)
  | 0 => by simp
  | k + 1 => by
    have ih := mem_seed k
    obtain ⟨heap, h⟩ := seed_eq t s k
    rw [range_succ, foldl_append, foldl_cons, foldl_nil, mem_pushPair, ih, h, or_assoc]
    refine or_congr Iff.rfl ⟨?_, ?_⟩
    · rintro (⟨hk, hg⟩ | ⟨rfl, hg⟩)
      · exact ⟨Nat.lt_succ_of_lt hk, hg⟩
      · exact ⟨Nat.lt_succ_self _, hg⟩
    · rintro ⟨hk, hg⟩
      rcases Nat.lt_succ_iff_lt_or_eq.1 hk with hk | rfl
      · exact .inl ⟨hk, hg⟩
      · exact .inr ⟨rfl, hg⟩

theorem length_seed (t : MergeTable) (s : Slots) : ∀ k,
    ((range k).foldl (fun s i => s.pushPair t i (i + 1)) s).heap.length ≤ s.heap.length + k
  | 0 => le_rfl
  | k + 1 => by
    rw [range_succ, foldl_append, foldl_cons, foldl_nil]
    exact (length_heap_pushPair ..).trans (Nat.succ_le_succ (length_seed t s k))

theorem range_cut (h : range n = a ++ i :: b) :
    lastLink a = (i : Int) - 1 ∧ headLink b = if i + 1 < n then ((i + 1 : Nat) : Int) else -1 := by
  rw [range_eq_range'] at h
  obtain ⟨k, hk, rfl, hcons⟩ := range'_eq_append_iff.1 h
  rw [Nat.zero_add, ← range_eq_range'] at *
  obtain ⟨rfl, hpos, rfl⟩ := range'_eq_cons_iff.1 hcons.symm
  constructor
  · cases k with
    | zero => rfl
    | succ k =>
      rw [range_succ, lastLink_concat]
      omega
  · split
    · obtain ⟨m, hm⟩ : ∃ m, n - k - 1 = m + 1 := ⟨n - k - 2, by omega⟩
      rw [hm, range'_succ, headLink]
    · rw [show n - k - 1 = 0 by omega, range'_zero, headLink]

theorem live_seeded (t : MergeTable) (syms : List Nat) : Live t syms.length (seeded t syms) (range syms.length) := by
  obtain ⟨heap, heq⟩ := seed_eq t (unlinked syms) (syms.length - 1)
  have hmem : ∀ e, e ∈ heap ↔ (e.left < syms.length - 1 ∧ e.gen = 0 ∧
      t.rank (syms.getD e.left 0) (syms.getD (e.left + 1) 0) = some e.rank) := fun e => by
    have := mem_seed (t := t) (s := unlinked syms) (e := e) (syms.length - 1)
    rw [heq] at this
    simpa [unlinked] using this
  unfold seeded
  rw [heq]
  refine ⟨pairwise_lt_range, fun i hi => mem_range.1 hi, fun i hi => ?_, ?_, ?_, fun i => ?_⟩
  · simp [unlinked, hi]
  · intro a i b hidx
    obtain ⟨ha, hb⟩ := range_cut hidx
    refine ⟨ha.symm, hb.symm, fun {j r} hj hr => ?_, fun e he hei _ => ?_⟩
    · rw [hb] at hj
      split at hj
      · obtain rfl : i + 1 = j := Int.ofNat.inj hj
        exact (hmem _).2 ⟨by dsimp only; omega, rfl, hr⟩
      · omega
    · obtain ⟨hlt, -, hr⟩ := (hmem e).1 he
      refine ⟨i + 1, by rw [hb, if_pos (by omega)], ?_⟩
      rwa [hei] at hr
  · intro e he
    obtain ⟨hlt, hg, -⟩ := (hmem e).1 he
    exact ⟨by omega, by rw [hg]; exact Nat.zero_le _⟩
  · simp [unlinked]

theorem Live.walk (h : Live t n s idx) :
    ∀ {b a : List Nat} {fuel : Nat}, idx = a ++ b → b.length < fuel → walkList s fuel (headLink b) = some (b.map s.syms)
  | [], a, fuel + 1, _, _ => rfl
  | i :: b, a, fuel + 1, hidx, hfuel => by
    have hrest : walkList s fuel (headLink b) = some (b.map s.syms) :=
      h.walk (a := a ++ [i]) (by simp [hidx]) (by simpa using hfuel)
    have hi : (0 : Int) ≤ (i : Int) := Int.natCast_nonneg i
    rw [headLink, walkList, if_pos hi, Int.toNat_natCast, (h.sites hidx).next, hrest]
    rfl

theorem Live.head (h : Live t n s idx) : headSlot s n = headLink idx := by
  have hfirst : ∀ i, i < n → ((s.prev i == -1 && !s.dead i) = true ↔ ∃ b, idx = i :: b) := by
    intro i hi
    rw [Bool.and_eq_true, beq_iff_eq, Bool.not_eq_true', h.alive i hi]
    constructor
    · rintro ⟨hprev, hmem⟩
      obtain ⟨a, b, hidx⟩ := append_of_mem hmem
      rw [(h.sites hidx).prev] at hprev
      rcases eq_nil_or_concat a with rfl | ⟨a', k, rfl⟩
      · exact ⟨b, hidx⟩
      · rw [concat_eq_append, lastLink_concat] at hprev
        omega
    · rintro ⟨b, hidx⟩
      exact ⟨(h.sites (a := []) hidx).prev, by simp [hidx]⟩
  unfold headSlot
  split
  · rename_i i hfind
    obtain ⟨b, hidx⟩ := (hfirst i (mem_range.1 (mem_of_find?_eq_some hfind))).1 (by simpa using find?_some hfind)
    rw [hidx, headLink]
  · rename_i hfind
    rw [find?_eq_none] at hfind
    cases idx with
    | nil => rfl
    | cons i b =>
      have hi : i < n := h.bound i mem_cons_self
      exact absurd ((hfirst i hi).2 ⟨b, rfl⟩) (hfind i (mem_range.2 hi))

theorem naive_nil (t : MergeTable) : naive t [] = [] := rfl

/-- The heap merge ends, and appends what the scan computes. -/
theorem bpeMergeSymbols_eq (t : MergeTable) (syms out : List Nat) (hn : syms.length < 2147483648) :
    bpeMergeSymbols t syms out = some (out ++ naive t syms) := by
  match syms, hn with
  | [], _ => rw [naive_nil, append_nil]; rfl
  | [x], _ => rfl
  | x :: y :: rest, hn =>
    have hlive := live_seeded t (x :: y :: rest)
    have hmap : (range (x :: y :: rest).length).map (seeded t (x :: y :: rest)).syms = x :: y :: rest := by
      obtain ⟨heap, heq⟩ := seed_eq t (unlinked (x :: y :: rest)) ((x :: y :: rest).length - 1)
      rw [seeded, heq]
      refine ext_getElem (by simp) fun k h1 h2 => ?_
      simp only [getElem_map, getElem_range, unlinked]
      exact (getElem_eq_getD ..).symm
    have hseed : (seeded t (x :: y :: rest)).heap.length ≤ 0 + ((x :: y :: rest).length - 1) := length_seed ..
    have hfuel : (seeded t (x :: y :: rest)).heap.length + 2 * (range (x :: y :: rest).length).length <
        3 * (x :: y :: rest).length := by
      rw [length_range]
      simp only [length_cons] at hseed ⊢
      omega
    obtain ⟨s', idx', hloop, hend, hsyms⟩ := hlive.run hn hfuel
    have hlen : idx'.length < (x :: y :: rest).length + 1 := by
      have := hend.gens 0
      omega
    unfold bpeMergeSymbols
    rw [hloop, Option.bind_some, hend.head, hend.walk (a := []) rfl hlen, hsyms, hmap]
    rfl

/-- A state the merge loop is in at some turn, when it merges `syms`. -/
inductive Reached (t : MergeTable) (syms : List Nat) : Slots → Prop
  | start : Reached t syms (Slots.seeded t syms)
  | turn {s s' : Slots} : Reached t syms s → mergeStep t s = some s' → Reached t syms s'

theorem Reached.live {syms : List Nat} (h : Reached t syms s) (hn : syms.length < 2147483648) :
    ∃ idx, Live t syms.length s idx := by
  induction h with
  | start => exact ⟨_, live_seeded t syms⟩
  | turn _ hstep ih =>
    obtain ⟨idx, hlive⟩ := ih
    obtain ⟨idx', hlive', -⟩ := hlive.step hn hstep
    exact ⟨idx', hlive'⟩

/-- **The heap merge is the naive merge, and trusts its heap rightly.**  It appends to `out` what repeated replacement of
the lowest-ranked adjacent pair gives, which has no mergeable pair left; and at every turn of the loop an entry that
passes the alive-and-generation test has the rank of the pair that now stands at its slot, an index into `merges`. -/
theorem heap_merge_is_naive (t : MergeTable) (syms out : List Nat) (hn : syms.length < 2 ^ 31) :
    bpeMergeSymbols t syms out = some (out ++ naive t syms) ∧ lowestPair t (naive t syms) = none ∧
    ∀ s, Reached t syms s → ∀ e heap, popMin s.heap = some (e, heap) → ({ s with heap := heap } : Slots).fresh e = true →
      t.rank (s.syms e.left) (s.syms (s.next e.left).toNat) = some e.rank ∧ e.rank < t.merges.length := by
  refine ⟨bpeMergeSymbols_eq t syms out (by simpa using hn), naiveLoop_done t _ syms le_rfl, fun s hs e heap hpop hfresh => ?_⟩
  obtain ⟨idx, hlive⟩ := hs.live (by simpa using hn)
  obtain ⟨a, r, b, -, hnext, hrank⟩ := hlive.popped hpop hfresh
  rw [hnext, Int.toNat_natCast]
  exact ⟨hrank, t.inRange hrank⟩

/-- Ids 0 and 1 merge to 2, then 2 and 0 to 3. -/
def twoMerges : MergeTable where
  rank a b := if a = 0 ∧ b = 1 then some 0 else if a = 2 ∧ b = 0 then some 1 else none
  merges := [2, 3]
  inRange {a b r} h := by
    split at h
    · cases h; decide
    · split at h
      · cases h; decide
      · cases h

theorem heap_merge_is_naive_twoMerges : ([0, 1, 0, 0, 1] : List Nat).length < 2 ^ 31 ∧
    bpeMergeSymbols twoMerges [0, 1, 0, 0, 1] [7] = some ([7] ++ naive twoMerges [0, 1, 0, 0, 1]) ∧
    naive twoMerges [0, 1, 0, 0, 1] = [3, 2] :=
  ⟨by decide, (heap_merge_is_naive twoMerges [0, 1, 0, 0, 1] [7] (by decide)).1, by decide⟩

end Hipfire.Tokens

import Hipfire.Snap.Packing
/-!
# Captures — delta snapshots restore the state they were captured from

The cache is what `entry` sees: the snapshots present, each with its packed bytes and, as ghost fields, the live geometry
and bytes it was captured from.  A capture is taken over the deepest ancestor present that lines up; the state may be
anything, as long as the rows below that ancestor's ends are still those the ancestor was captured from.
-/
namespace Hipfire.Snap

open List Function

variable {κ V : Type}

/-! ## The cache -/

/-- A snapshot with its packed bytes; the geometry and the bytes it was captured from are ghosts. -/
structure Captured (κ V : Type) where
  snapshot : StoredSnapshot κ
  data : Nat → V
  fixed : List (Nat × Nat)
  rows : List (Nat × Nat)
  live : LiveBytes V

abbrev Cache (κ V : Type) := κ → Option (Captured κ V)

/-- What `entry` sees of it. -/
def Cache.entry (cache : Cache κ V) (key : κ) : Option (StoredSnapshot κ) := (cache key).map Captured.snapshot

/-- A capture of `live` into a buffer that held `fresh`. -/
def Cache.capture (cache : Cache κ V) (ancestors : List κ) (fixed rows : List (Nat × Nat)) (live : LiveBytes V)
    (fresh : Nat → V) : Captured κ V :=
  let planned := planCapture cache.entry ancestors (fixed.map Prod.snd) rows
  { snapshot :=
      { parent := planned.1
        fixedBytes := planned.2.fixedBytes
        segments := planned.2.segments
        bytes := planned.2.total
        ordered := planCapture_ordered _ _ _ _ }
    data := writeAll (saveWrites (planned.2.copies (fixed.map Prod.fst)) live fixed.length) fresh
    fixed := fixed
    rows := rows
    live := live }

/-- The rows one state holds are in the other, byte for byte. -/
def RowsKept (rows : List (Nat × Nat)) (old new : LiveBytes V) : Prop :=
  ∀ i r, rows[i]? = some r → ∀ o, o < r.1 * r.2 → new.rows i o = old.rows i o

/-- A snapshot that starts where a state of these rows ends, and was captured over it. -/
def Over (c : Captured κ V) (rows : List (Nat × Nat)) (live : LiveBytes V) : Prop :=
  LinkFits (rows.map Prod.fst) (rows.map Prod.snd) c.snapshot ∧ RowsKept rows live c.live

/-- The runs: captures and, in between, snapshots leaving the cache. -/
inductive Reached [DecidableEq κ] : Cache κ V → Prop
  | empty : Reached fun _ => none
  | capture {cache : Cache κ V} (key : κ) (ancestors : List κ) (fixed rows : List (Nat × Nat)) (live : LiveBytes V)
      (fresh : Nat → V) : Reached cache → cache key = none →
      -- the rows of the parent's prefix are unchanged since its capture
      (∀ parent c, (planCapture cache.entry ancestors (fixed.map Prod.snd) rows).1 = some parent → cache parent = some c →
        RowsKept c.rows c.live live) →
      -- a key names a prefix: snapshots left without this parent were captured over the state it names
      (∀ other c, cache other = some c → c.snapshot.parent = some key → Over c rows live) →
      Reached (update cache key (some (cache.capture ancestors fixed rows live fresh)))
  | drop {cache : Cache κ V} (key : κ) : Reached cache → Reached (update cache key none)

/-- `chain_keys` before it is reversed: the leaf, its parent, and so on to the root. -/
def Cache.chainUp (cache : Cache κ V) : Nat → κ → Option (List (Captured κ V))
  | 0, _ => none
  | fuel + 1, key =>
    (cache key).bind fun c =>
      match c.snapshot.parent with
      | none => some [c]
      | some parent => (cache.chainUp fuel parent).map (c :: ·)

/-- The root-first chain that ends at `key`; nothing when a link is missing. -/
def Cache.chain (cache : Cache κ V) (fuel : Nat) (key : κ) : Option (List (Captured κ V)) :=
  (cache.chainUp fuel key).map reverse

/-- `load_from_store` over a chain: the single writes of the restore's copies. -/
def loadWrites (copies : List RestoreCopy) (chain : List (Captured κ V)) (leaf : Captured κ V) : List ((Nat × Nat) × V) :=
  copies.flatMap fun c => (range c.copy.bytes).map fun t =>
    ((c.copy.part, c.copy.liveOffset + t), (chain.getD c.link leaf).data (c.copy.parkOffset + t))

/-- What a stored snapshot says about the state it was captured from. -/
structure Sound (c : Captured κ V) : Prop where
  fixedBytes : c.snapshot.fixedBytes = c.fixed.map Prod.snd
  widths : c.snapshot.segments.map Segment.rowBytes = c.rows.map Prod.fst
  stops : c.snapshot.segments.map Segment.stop = c.rows.map Prod.snd
  bytes : c.snapshot.bytes = (layout (c.snapshot.fixedBytes ++ c.snapshot.segments.map Segment.bytes)).2
  data : ∀ {j lo b po}, (placedParts c.fixed c.snapshot.segments)[j]? = some ((lo, b), po) → ∀ t, t < b →
    c.data (po + t) = c.live.buf c.fixed.length (j, lo + t)

theorem capture_sound (cache : Cache κ V) (ancestors : List κ) (fixed rows : List (Nat × Nat)) (live : LiveBytes V)
    (fresh : Nat → V) : Sound (cache.capture ancestors fixed rows live fresh) := by
  have hplan : ∃ ends, (planCapture cache.entry ancestors (fixed.map Prod.snd) rows).2 =
      ParkPlan.delta (fixed.map Prod.snd) rows ends := by
    rcases planCapture_cases cache.entry ancestors (fixed.map Prod.snd) rows with h | ⟨_, _, -, -, -, -, h⟩ <;> exact ⟨_, by rw [h]⟩
  obtain ⟨ends, hends⟩ := hplan
  have hseg := delta_segments (fixed.map Prod.snd) rows ends
  have hof : (planCapture cache.entry ancestors (fixed.map Prod.snd) rows).2 = ParkPlan.ofParts (fixed.map Prod.snd)
      (planCapture cache.entry ancestors (fixed.map Prod.snd) rows).2.segments := by rw [hends]; rfl
  have hfixed : (planCapture cache.entry ancestors (fixed.map Prod.snd) rows).2.fixedBytes = fixed.map Prod.snd := by
    rw [hof]; rfl
  rw [← hends] at hseg
  refine ⟨hfixed, hseg.1, hseg.2, rfl, fun hj t ht => ?_⟩
  have hsave := save_packed fixed (planCapture cache.entry ancestors (fixed.map Prod.snd) rows).2.segments live fresh hj ht
  rwa [← copies_ofParts, ← hof] at hsave

variable {cache : Cache κ V} {c p : Captured κ V} {fixed rows : List (Nat × Nat)}
  {ancestors : List κ} {live : LiveBytes V} {fresh : Nat → V}

theorem Sound.offsets (hc : Sound c) :
    c.snapshot.offsets = (layout (c.fixed.map Prod.snd ++ c.snapshot.segments.map Segment.bytes)).1 := by
  rw [StoredSnapshot.offsets, hc.fixedBytes]

theorem Sound.row (hc : Sound c) {i : Nat} {seg : Segment} (hseg : c.snapshot.segments[i]? = some seg) :
    c.rows[i]? = some (seg.rowBytes, seg.stop) := by
  have hwidth := congrArg (·[i]?) hc.widths
  have hstop := congrArg (·[i]?) hc.stops
  simp only [getElem?_map, hseg, Option.map_some] at hwidth hstop
  obtain ⟨r, hr, hw⟩ := Option.map_eq_some_iff.1 hwidth.symm
  rw [hr, Option.map_some, Option.some.injEq] at hstop
  rw [hr, ← hw, hstop]

/-! ## The run -/

/-- **What a run keeps**: every snapshot is sound, a root starts at row 0, and a snapshot whose parent is present was
captured over the parent's state. -/
structure Chained (cache : Cache κ V) : Prop where
  sound : ∀ {key c}, cache key = some c → Sound c
  root : ∀ {key c}, cache key = some c → c.snapshot.parent = none →
    LinkFits (c.rows.map Prod.fst) (replicate c.rows.length 0) c.snapshot
  child : ∀ {key c parent p}, cache key = some c → c.snapshot.parent = some parent → cache parent = some p →
    Over c p.rows p.live

/-- **A capture starts at row 0 without a parent, or where the parent it names ends.** -/
theorem capture_cases (h : cache.capture ancestors fixed rows live fresh = c) :
    (c.snapshot.parent = none ∧ c.snapshot.segments.map Segment.start = replicate rows.length 0) ∨
    ∃ key p, c.snapshot.parent = some key ∧ cache key = some p ∧ p.snapshot.segments.map Segment.rowBytes = rows.map Prod.fst ∧
      c.snapshot.segments.map Segment.start = p.snapshot.segments.map Segment.stop := by
  have hplan : ∀ {plan}, planCapture cache.entry ancestors (fixed.map Prod.snd) rows = plan →
      c.snapshot.parent = plan.1 ∧ c.snapshot.segments = plan.2.segments := by
    rintro _ rfl
    exact h ▸ ⟨rfl, rfl⟩
  rcases planCapture_cases cache.entry ancestors (fixed.map Prod.snd) rows with hp | ⟨key, s, -, hs, hw, -, hp⟩ <;>
    obtain ⟨hpar, hseg⟩ := hplan hp <;> rw [hpar, hseg]
  · exact .inl ⟨rfl, delta_starts_none ..⟩
  · obtain ⟨p, hget, rfl⟩ := Option.map_eq_some_iff.1 hs
    exact .inr ⟨key, p, rfl, hget, hw, delta_starts_some _ _ (by simpa using congrArg length hw)⟩

theorem Reached.chained [DecidableEq κ] (h : Reached cache) : Chained cache := by
  induction h with
  | empty => exact ⟨nofun, nofun, nofun⟩
  | @capture cache key ancestors fixed rows live fresh _ habsent hkept hchildren ih =>
    -- the new entry is looked up under `key`, the others as before
    have hlook : ∀ {k c}, update cache key (some (cache.capture ancestors fixed rows live fresh)) k = some c →
        (k = key ∧ c = cache.capture ancestors fixed rows live fresh) ∨ (k ≠ key ∧ cache k = some c) := fun {k c} h => by
      rw [update_apply] at h
      split at h
      · exact .inl ⟨‹_›, (Option.some.inj h).symm⟩
      · exact .inr ⟨‹_›, h⟩
    refine ⟨fun {k c} h => ?_, fun {k c} h hroot => ?_, fun {k c parent p} h hpar hp => ?_⟩
    · rcases hlook h with ⟨-, rfl⟩ | ⟨-, h⟩
      · exact capture_sound ..
      · exact ih.sound h
    · rcases hlook h with ⟨-, rfl⟩ | ⟨-, h⟩
      · rcases capture_cases rfl with ⟨-, hstart⟩ | ⟨_, _, hpar, -⟩
        · exact ⟨(capture_sound ..).widths, hstart⟩
        · cases hroot.symm.trans hpar
      · exact ih.root h hroot
    · rcases hlook h with ⟨-, rfl⟩ | ⟨-, hold⟩
      · rcases capture_cases rfl with ⟨hroot, -⟩ | ⟨_, _, hnamed, hold, hwidth, hstart⟩
        · cases hpar.symm.trans hroot
        cases hpar.symm.trans hnamed
        rcases hlook hp with ⟨rfl, -⟩ | ⟨-, hp⟩
        · cases habsent.symm.trans hold
        cases hp.symm.trans hold
        have hsound := ih.sound hp
        exact ⟨⟨(capture_sound ..).widths.trans (hwidth.symm.trans hsound.widths), hstart.trans hsound.stops⟩, hkept _ _ hpar hp⟩
      · rcases hlook hp with ⟨rfl, rfl⟩ | ⟨-, hp⟩
        · exact hchildren _ _ hold hpar
        · exact ih.child hold hpar hp
  | @drop cache key _ ih =>
    have hlook : ∀ {k c}, update cache key none k = some c → cache k = some c := fun {k c} h => by
      rw [update_apply] at h
      split at h
      · cases h
      · exact h
    exact ⟨fun h => ih.sound (hlook h), fun h => ih.root (hlook h), fun h hpar hp => ih.child (hlook h) hpar (hlook hp)⟩

/-! ## The chain of a leaf -/

theorem ChainFits.append {widths : List Nat} : ∀ {chain : List (StoredSnapshot κ)} {next mid : List Nat} {s : StoredSnapshot κ},
    ChainFits widths next chain mid → LinkFits widths mid s → ChainFits widths next (chain ++ [s]) (s.segments.map Segment.stop)
  | [], _, _, _, h, hs => ⟨by rwa [show _ = _ from h], rfl⟩
  | _ :: _, _, _, _, h, hs => ⟨h.1, h.2.append hs⟩

/-- Every row of `s` is a row of `c`, byte for byte. -/
def Within (s c : Captured κ V) : Prop :=
  ∀ i r, s.rows[i]? = some r → ∃ n, c.rows[i]? = some (r.1, n) ∧ r.2 ≤ n ∧ ∀ o, o < r.1 * r.2 → c.live.rows i o = s.live.rows i o

theorem Within.refl (c : Captured κ V) : Within c c := fun _ r hr => ⟨r.2, hr, Nat.le_refl _, fun _ _ => rfl⟩

theorem Within.trans {s : Captured κ V} (h : Within s p) (h' : Within p c) : Within s c := by
  intro i r hr
  obtain ⟨n, hn, hle, hrows⟩ := h i r hr
  obtain ⟨m, hm, hle', hrows'⟩ := h' i _ hn
  refine ⟨m, hm, Nat.le_trans hle hle', fun o ho => ?_⟩
  rw [hrows' o (Nat.lt_of_lt_of_le ho (Nat.mul_le_mul_left _ hle)), hrows o ho]

theorem Over.within (hc : Sound c) (h : Over c p.rows p.live) : Within p c := by
  intro i r hr
  have hwidth := congrArg (·[i]?) h.1.1
  have hstart := congrArg (·[i]?) h.1.2
  simp only [getElem?_map, hr, Option.map_some] at hwidth hstart
  obtain ⟨seg, hseg, hw⟩ := Option.map_eq_some_iff.1 hwidth
  rw [hseg, Option.map_some, Option.some.injEq] at hstart
  have hord := c.snapshot.ordered seg (mem_of_getElem? hseg)
  exact ⟨seg.stop, by rw [hc.row hseg, hw], by omega, h.2 i r hr⟩

/-- **The chain of a leaf, root first**: its segments tile, and every link's rows are still the leaf's. -/
theorem Chained.chain_spec (h : Chained cache) : ∀ {fuel : Nat} {key : κ} {up : List (Captured κ V)},
    cache.chainUp fuel key = some up → ∃ c, cache key = some c ∧ (up.reverse).getLast? = some c ∧
      ChainFits (c.rows.map Prod.fst) (replicate c.rows.length 0) (up.reverse.map Captured.snapshot) (c.rows.map Prod.snd) ∧
      ∀ s ∈ up, Sound s ∧ Within s c
  | fuel + 1, key, up, hup => by
    rw [Cache.chainUp, Option.bind_eq_some_iff] at hup
    obtain ⟨c, hc, hup⟩ := hup
    have hsound := h.sound hc
    refine ⟨c, hc, ?_⟩
    split at hup
    · rename_i hroot
      cases hup
      exact ⟨rfl, ⟨h.root hc hroot, hsound.stops⟩, forall_mem_singleton.2 ⟨hsound, Within.refl c⟩⟩
    · rename_i parent hpar
      obtain ⟨up', hup', rfl⟩ := Option.map_eq_some_iff.1 hup
      obtain ⟨p, hp, -, hfits, hlinks⟩ := h.chain_spec hup'
      have hover := h.child hc hpar hp
      have hlink := hover.1
      have hwidths : p.rows.map Prod.fst = c.rows.map Prod.fst := hlink.1.symm.trans hsound.widths
      have hlen : p.rows.length = c.rows.length := by simpa using congrArg length hwidths
      rw [hwidths] at hfits hlink
      rw [hlen] at hfits
      refine ⟨by simp, ?_, forall_mem_cons.2 ⟨⟨hsound, Within.refl c⟩, fun s hs =>
        ⟨(hlinks s hs).1, (hlinks s hs).2.trans (hover.within hsound)⟩⟩⟩
      rw [reverse_cons, map_append, ← hsound.stops]
      exact hfits.append hlink

/-! ## What a restore writes -/

theorem chainCopies_links (fixedCount : Nat) : ∀ (chain : List (StoredSnapshot κ)) (link : Nat) {c : RestoreCopy},
    c ∈ chainCopies fixedCount link chain →
    ∃ k s, c.link = link + k ∧ chain[k]? = some s ∧ c.copy ∈ partCopies fixedCount (placedSegments s)
  | s :: rest, link, c, h => by
    rw [chainCopies, mem_append, linkCopies_eq] at h
    rcases h with h | h
    · obtain ⟨copy, hcopy, rfl⟩ := mem_map.1 h
      exact ⟨0, s, rfl, rfl, hcopy⟩
    · obtain ⟨k, s', hk, hs', hcopy⟩ := chainCopies_links fixedCount rest (link + 1) h
      exact ⟨k + 1, s', by omega, hs', hcopy⟩

theorem placedSegments_get (hc : Sound c) {i : Nat} {x : (Nat × Nat) × Nat}
    (h : (placedSegments c.snapshot)[i]? = some x) :
    (placedParts c.fixed c.snapshot.segments)[c.fixed.length + i]? = some x ∧
      ∃ seg, c.snapshot.segments[i]? = some seg ∧ x.1 = (seg.start * seg.rowBytes, seg.bytes) := by
  obtain ⟨lb, po⟩ := x
  rw [placedSegments, getElem?_zip_eq_some, getElem?_map, Option.map_eq_some_iff, getElem?_drop] at h
  obtain ⟨⟨seg, hseg, rfl⟩, hpo⟩ := h
  refine ⟨?_, seg, hseg, rfl⟩
  rw [placedParts, getElem?_zip_eq_some]
  refine ⟨?_, ?_⟩
  · rw [getElem?_append_right (Nat.le_add_right _ _), Nat.add_sub_cancel_left, getElem?_map, hseg]
    rfl
  · rwa [hc.fixedBytes, length_map, hc.offsets] at hpo

theorem Sound.within_bytes (hc : Sound c) {j lo b po : Nat}
    (h : (placedParts c.fixed c.snapshot.segments)[j]? = some ((lo, b), po)) : po + b ≤ c.snapshot.bytes := by
  rw [placedParts, getElem?_zip_eq_some] at h
  rw [hc.bytes, hc.fixedBytes]
  refine layout_within ?_ h.2
  have hmap : c.fixed.map Prod.snd ++ c.snapshot.segments.map Segment.bytes =
      (c.fixed ++ c.snapshot.segments.map fun seg => (seg.start * seg.rowBytes, seg.bytes)).map Prod.snd := by simp
  rw [hmap, getElem?_map, h.1]
  rfl

theorem LiveBytes.buf_rows (live : LiveBytes V) (fixedCount i o : Nat) :
    live.buf fixedCount (fixedCount + i, o) = live.rows i o := by
  rw [LiveBytes.buf, if_neg (by simp), Nat.add_sub_cancel_left]

/-- **A planned copy reads within its link and brings the leaf's bytes.** -/
theorem restoreCopies_spec {chain : List (Captured κ V)} (hc : Sound c)
    (hlast : chain.getLast? = some c) (hlinks : ∀ s ∈ chain, Sound s ∧ Within s c)
    {rc : RestoreCopy} (h : rc ∈ restoreCopies (chain.map Captured.snapshot) c.snapshot c.fixed) :
    ∃ s, chain[rc.link]? = some s ∧ rc.copy.parkOffset + rc.copy.bytes ≤ s.snapshot.bytes ∧
      ∀ t, t < rc.copy.bytes →
        s.data (rc.copy.parkOffset + t) = c.live.buf c.fixed.length (rc.copy.part, rc.copy.liveOffset + t) := by
  rw [restoreCopies, mem_append, fixedCopies_eq, length_map] at h
  rcases h with h | h
  · obtain ⟨copy, hcopy, rfl⟩ := mem_map.1 h
    obtain ⟨j, hj, hpart⟩ := mem_partCopies hcopy
    rw [Nat.zero_add] at hpart
    have hplaced : (placedParts c.fixed c.snapshot.segments)[j]? = some ((copy.liveOffset, copy.bytes), copy.parkOffset) := by
      rw [hc.offsets, getElem?_zip_eq_some] at hj
      rw [placedParts, getElem?_zip_eq_some]
      exact ⟨by rw [getElem?_append_left (List.getElem?_eq_some_iff.1 hj.1).1]; exact hj.1, hj.2⟩
    refine ⟨c, by rw [← hlast, getLast?_eq_getElem?], hc.within_bytes hplaced, fun t ht => ?_⟩
    rw [hc.data hplaced t ht, hpart]
  · obtain ⟨k, snapshot, hlink, hk, hcopy⟩ := chainCopies_links _ _ _ h
    rw [getElem?_map, Option.map_eq_some_iff] at hk
    obtain ⟨s, hs, rfl⟩ := hk
    obtain ⟨hsound, hwithin⟩ := hlinks s (mem_of_getElem? hs)
    obtain ⟨i, hi, hpart⟩ := mem_partCopies hcopy
    obtain ⟨hplaced, seg, hseg, hrange⟩ := placedSegments_get hsound hi
    refine ⟨s, by rw [hlink, Nat.zero_add, hs], hsound.within_bytes hplaced, fun t ht => ?_⟩
    rw [hsound.data hplaced t ht, hpart, LiveBytes.buf_rows, LiveBytes.buf_rows]
    -- the byte lies in rows the leaf still holds
    obtain ⟨n, -, -, hbytes⟩ := hwithin i _ (hsound.row hseg)
    refine (hbytes _ ?_).symm
    obtain ⟨hlo, hb⟩ := Prod.mk.inj hrange
    have hord := s.snapshot.ordered seg (mem_of_getElem? hseg)
    have hend : seg.start * seg.rowBytes + seg.bytes = seg.rowBytes * seg.stop := by
      rw [Segment.bytes, ← Nat.add_mul, Nat.add_sub_cancel' hord, Nat.mul_comm]
    dsimp only
    omega

/-- **Delta-chain snapshots restore exactly.**  After any run of captures and drops, the root-first chain of a leaf is
accepted for the leaf's live geometry; its copies write every fixed byte and every row byte once and nothing else, each
within its link's packed size, and executing them over any memory gives the bytes that were live at the capture.  A chain
whose segments leave some stream untiled is refused. -/
theorem delta_chain_restores_exactly [DecidableEq κ] :
    (∀ {cache : Cache κ V}, Reached cache → ∀ fuel key chain, cache.chain fuel key = some chain →
      ∃ c copies, cache key = some c ∧
        planChainRestore (chain.map Captured.snapshot) c.fixed c.rows = .ok copies ∧
        (∀ a, (written copies).count a = if inState c.fixed c.rows a then 1 else 0) ∧
        (∀ rc ∈ copies, ∃ s, chain[rc.link]? = some s ∧ rc.copy.parkOffset + rc.copy.bytes ≤ s.snapshot.bytes) ∧
        ∀ mem a, writeAll (loadWrites copies chain c) mem a =
          if inState c.fixed c.rows a then c.live.buf c.fixed.length a else mem a) ∧
    ∀ (chain : List (StoredSnapshot κ)) (dstFixed dstRows : List (Nat × Nat)),
      (∃ i r, dstRows[i]? = some r ∧ ¬ Tiles i 0 chain r.2) → planChainRestore chain dstFixed dstRows = .error mismatch := by
  refine ⟨fun {cache} hrun fuel key chain hchain => ?_, fun chain dstFixed dstRows => planChainRestore_of_not_tiles⟩
  obtain ⟨up, hup, rfl⟩ := Option.map_eq_some_iff.1 hchain
  obtain ⟨c, hc, hlast, hfits, hlinks⟩ := hrun.chained.chain_spec hup
  have hsound := hrun.chained.sound hc
  have hlinks' : ∀ s ∈ up.reverse, Sound s ∧ Within s c := fun s hs => hlinks s (mem_reverse.1 hs)
  have hacc : Accepts (up.reverse.map Captured.snapshot) c.snapshot c.fixed c.rows :=
    ⟨by rw [getLast?_map, hlast]; rfl, hsound.fixedBytes.symm, hfits⟩
  have hplan : planChainRestore (up.reverse.map Captured.snapshot) c.fixed c.rows =
      .ok (restoreCopies (up.reverse.map Captured.snapshot) c.snapshot c.fixed) := by
    rcases planChainRestore_cases (up.reverse.map Captured.snapshot) c.fixed c.rows with ⟨leaf, hleaf, hok⟩ | ⟨hno, -⟩
    · rw [hok, Option.some.inj (hleaf.last.symm.trans hacc.last)]
    · exact absurd hacc (hno _)
  have hcount := count_restoreCopies hacc
  have hspec := fun rc (h : rc ∈ restoreCopies (up.reverse.map Captured.snapshot) c.snapshot c.fixed) =>
    restoreCopies_spec hsound hlast hlinks' h
  refine ⟨c, _, hc, hplan, hcount, fun rc hrc => ?_, fun mem a => ?_⟩
  · obtain ⟨s, hs, hle, -⟩ := hspec rc hrc
    exact ⟨s, hs, hle⟩
  have haddr : (loadWrites (restoreCopies (up.reverse.map Captured.snapshot) c.snapshot c.fixed) up.reverse c).map Prod.fst =
      written (restoreCopies (up.reverse.map Captured.snapshot) c.snapshot c.fixed) := by
    simp [loadWrites, written, targets, map_flatMap, comp_def]
  split
  · rename_i hin
    refine writeAll_of_forall (f := c.live.buf c.fixed.length) (fun w hw => ?_) ?_
    · obtain ⟨rc, hrc, hw⟩ := mem_flatMap.1 hw
      obtain ⟨t, ht, rfl⟩ := mem_map.1 hw
      obtain ⟨s, hs, -, hdata⟩ := hspec rc hrc
      rw [getD, hs]
      exact hdata t (mem_range.1 ht)
    · rw [haddr]
      refine count_pos_iff.1 ?_
      rw [hcount, if_pos hin]
      exact Nat.one_pos
  · rename_i hout
    refine writeAll_of_not_mem ?_
    rw [haddr, ← count_eq_zero, hcount, if_neg hout]

/-- A state whose bytes tell where they lie. -/
def ramp : LiveBytes Nat := ⟨fun part o => 100 * part + o, fun stream o => 1000 * (stream + 1) + o⟩

/-- Two rows captured under key 1, then five of the same stream under key 2. -/
def oneCapture : Cache Nat Nat :=
  update (fun _ => none) 1 (some (Cache.capture (fun _ => none) [] [(4, 2)] [(3, 2)] ramp fun _ => 0))

def twoCaptures : Cache Nat Nat :=
  update oneCapture 2 (some (oneCapture.capture [1] [(4, 2)] [(3, 5)] ramp fun _ => 0))

theorem reached_twoCaptures : Reached twoCaptures := by
  have hone : ∀ {key c}, oneCapture key = some c → c.live = ramp ∧ c.snapshot.parent = none := fun {key c} h => by
    unfold oneCapture at h
    by_cases hk : key = 1
    · subst hk
      cases h
      exact ⟨rfl, rfl⟩
    · rw [update_of_ne hk] at h
      cases h
  refine .capture 2 [1] _ _ _ _ (.capture 1 [] _ _ _ _ .empty rfl ?_ ?_) rfl ?_ ?_
  · intro parent c _ h
    cases h
  · intro other c h
    cases h
  · intro parent c _ h i r _ o _
    rw [(hone h).1]
  · intro other c h hpar
    rw [(hone h).2] at hpar
    cases hpar

theorem delta_chain_restores_exactly_twoCaptures :
    Reached twoCaptures ∧ ∃ chain, twoCaptures.chain 2 2 = some chain ∧ chain.length = 2 ∧
      ∃ c copies, twoCaptures 2 = some c ∧ planChainRestore (chain.map Captured.snapshot) c.fixed c.rows = .ok copies ∧
        ∀ mem, writeAll (loadWrites copies chain c) mem (1, 14) = 1014 := by
  refine ⟨reached_twoCaptures, _, rfl, rfl, ?_⟩
  obtain ⟨c, copies, hc, hplan, -, -, hrestored⟩ :=
    (delta_chain_restores_exactly (κ := Nat) (V := Nat)).1 reached_twoCaptures 2 2 _ rfl
  refine ⟨c, copies, hc, hplan, fun mem => ?_⟩
  cases hc
  exact hrestored mem (1, 14)

end Hipfire.Snap

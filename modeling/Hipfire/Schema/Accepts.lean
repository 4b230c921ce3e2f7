import Hipfire.Base.Run
import Hipfire.Schema.Matcher
import Hipfire.Schema.Strict
/-!
# Accepts — what the matcher accepts conforms

The accepted flag outlives the buffer it was set for: while a number is open the buffer grows under it, and a parse that ends
before its text does leaves the flag as it was.  So a number that is accepted can be left at a point or an exponent's mark, or
at a number that the schema does not admit.  If it is left at neither (`Settled`), what an accepting matcher has conforms.
-/
namespace Hipfire.Schema

open Json List

variable {lib : Serde} {root : SchemaNode}

/-- One JSON text with blanks around it, no key repeated, its value valid. -/
def Conforms (lib : Serde) (root : SchemaNode) (s : Bytes) : Prop :=
  ∃ d, IsText s d ∧ Strict d ∧ validate (lib.value d) root = .ok ()

theorem eq_num_of_isNumber {d : Doc} (h : (lib.value d).isNumber = true) : ∃ text, d = .num text := by
  cases d with
  | num text => exact ⟨text, rfl⟩
  | null | bool | str | arr | obj => cases h

/-- The numbers that a schema admits. -/
def admitsNumber : SchemaNode → Number → Bool
  | .any, _ => true
  | .number, n => !(n.asF64.isNan || n.asF64.isInfinite)
  | .integer, n => n.isI64 || n.isU64 || n.asF64.isIntegral
  | .enum values, n => values.any (jsonEqual (.number n))
  | .const c, n => jsonEqual (.number n) c
  | _, _ => false

/-- A number that is left at a digit, and at one that the schema admits. -/
structure Settled (lib : Serde) (root : SchemaNode) (s : Bytes) : Prop where
  digit : DigitLast (word s)
  admitted : admitsNumber root (lib.number (word s)) = true

/-- A number that breaks off at most at its end begins a text. -/
theorem Serde.Correct.begins_of_ends (hlib : lib.Correct) {s : Bytes} (hs : NumberBegun s)
    (hends : s.dropWhile isWs ≠ [] → ∀ e, lib.parse (s.dropWhile isWs) = .error e → e = .eof) : ∃ r d, IsText (s ++ r) d := by
  obtain ⟨b, bs, hb, hstart⟩ := hs
  have hdrop : (s.dropWhile isWs).dropWhile isWs = s.dropWhile isWs := dropWhile_idempotent _ _
  cases hparse : lib.parse (s.dropWhile isWs) with
  | ok v =>
    obtain ⟨d, hd, -⟩ := hlib.sound _ v hparse
    exact ⟨[], d, by rw [append_nil]; exact isText_of_dropWhile hd⟩
  | error e =>
    obtain rfl := hends (hb ▸ cons_ne_nil b bs) e hparse
    obtain ⟨r, d, htext⟩ := hlib.begins _ ⟨b, bs, hdrop.trans hb, hstart⟩ hparse
    refine ⟨r, d, isText_of_dropWhile ?_⟩
    rw [dropWhile_append, hb, isEmpty_cons, if_neg (by decide), ← hb]
    exact htext

/-! ## One parse -/

variable {c : Bytes} {m : SchemaMatcher}

namespace SchemaMatcher

theorem conforms_eq {v : Value} {node : SchemaNode} : conforms v node = true ↔ validate v node = .ok () := by
  unfold Schema.conforms
  cases validate v node with
  | ok u => exact ⟨fun _ => rfl, fun _ => rfl⟩
  | error e => exact ⟨nofun, nofun⟩

/-- The buffer parses to a value that conforms, and the scan proves nothing against it. -/
structure Takes (lib : Serde) (m : SchemaMatcher) (v : Value) : Prop where
  alive : m.scan.deadEnd = false
  parses : lib.parse (m.bytes.dropWhile isWs) = .ok v
  valid : validate v m.root = .ok ()
  nonempty : m.bytes.dropWhile isWs ≠ []

/-- The number may grow with the bytes to come. -/
def grows (m : SchemaMatcher) (v : Value) : Bool :=
  v.isNumber && ((m.bytes.dropWhile isWs).getLast?.map continuesNumber).getD false

theorem duplicateKeys_of_alive {scan : RawScan} (h : scan.deadEnd = false) : scan.duplicateKeys = false := by
  unfold RawScan.deadEnd at h
  simp only [Bool.or_eq_false_iff] at h
  exact h.1.1.1.1.1

theorem parse_takes {v : Value} (h : m.Takes lib v) :
    m.parse lib = { m with accepted := true, numberOpen := m.grows v } := by
  obtain ⟨b, bs, hrest⟩ := exists_cons_of_ne_nil h.nonempty
  have hparses := h.parses
  rw [hrest] at hparses
  unfold parse
  simp only [hrest, h.alive, Bool.false_eq_true, if_false, hparses]
  unfold parsed
  rw [duplicateKeys_of_alive h.alive, conforms_eq.2 h.valid]
  unfold grows
  rw [hrest]
  split <;> rename_i hgrow
  · rw [hgrow]
    rfl
  · rw [Bool.eq_false_iff.2 hgrow]
    rfl

theorem parse_rest {lib : Serde} {m : SchemaMatcher} {b : UInt8} {bs : List UInt8}
    (hrest : m.bytes.dropWhile isWs = b :: bs) : m.parse lib = if m.scan.deadEnd then m.fail else
      match lib.parse (b :: bs) with
      | .ok v => m.parsed lib (b :: bs) v
      | .error e => m.unparsed (b :: bs) e := by
  unfold parse
  generalize m.bytes.dropWhile isWs = rest at hrest ⊢
  subst hrest
  rfl

/-- Every other parse fails, or changes nothing and breaks off at most at the end of the buffer. -/
theorem parse_cases (lib : Serde) (m : SchemaMatcher) : (∃ v, m.Takes lib v) ∨ m.parse lib = m.fail ∨ m.parse lib = m ∧
      (m.bytes.dropWhile isWs ≠ [] → ∀ e, lib.parse (m.bytes.dropWhile isWs) = .error e → e = .eof) := by
  cases hrest : m.bytes.dropWhile isWs with
  | nil =>
    refine .inr (.inr ⟨?_, fun h => absurd rfl h⟩)
    unfold parse
    rw [hrest]
  | cons b bs =>
    rw [parse_rest hrest]
    cases halive : m.scan.deadEnd with
    | true => exact .inr (.inl rfl)
    | false =>
      cases hv : lib.parse (b :: bs) with
      | error e =>
        simp only
        unfold unparsed
        by_cases heof : e = .eof
        · repeat (split; · exact .inr (.inl rfl))
          exact .inr (.inr ⟨rfl, fun _ _ he => Except.error.inj he ▸ heof⟩)
        · rw [if_neg (by decide), if_pos heof]
          exact .inr (.inl rfl)
      | ok v =>
        cases hvalid : conforms v m.root with
        | true =>
          refine .inl ⟨v, halive, ?_, conforms_eq.1 hvalid, ?_⟩
          · rw [hrest, hv]
          · rw [hrest]
            exact cons_ne_nil b bs
        | false =>
          simp only
          unfold parsed
          rw [duplicateKeys_of_alive halive, hvalid]
          simp only [Bool.false_eq_true, if_false]
          split
          · split
            · exact .inr (.inr ⟨rfl, fun _ => nofun⟩)
            · exact .inr (.inl rfl)
          · exact .inr (.inl rfl)

theorem Takes.conforms {v : Value} (h : m.Takes lib v) (hlib : lib.Sound)
    (hscan : m.scan = scanRaw lib m.bytes m.root) :
    ∃ d, IsText m.bytes d ∧ v = lib.value d ∧ Strict d ∧ validate (lib.value d) m.root = .ok () := by
  obtain ⟨d, hd, rfl⟩ := hlib _ v h.parses
  have htext := isText_of_dropWhile hd
  exact ⟨d, htext, rfl, strict_of_scanRaw htext (hscan ▸ duplicateKeys_of_alive h.alive), h.valid⟩

/-! ## Along a run -/

/-- What the flags say of the buffer, and the buffer of what was committed. -/
structure Inv (lib : Serde) (root : SchemaNode) (committed : Bytes) (m : SchemaMatcher) : Prop where
  sameRoot : m.root = root
  accepted : m.numberOpen = true → m.accepted = true
  growing : (m.accepted = true → m.numberOpen = true) → m.bytes = committed
  number : m.numberOpen = true → NumberBegun m.bytes
  begins : m.errored = false → m.numberOpen = true → ∃ r d, IsText (m.bytes ++ r) d
  closed : m.accepted = true → m.numberOpen = false →
    Conforms lib root m.bytes ∧ ∃ w, IsSpace w ∧ committed = m.bytes ++ w

theorem Inv.wsRun (h : Inv lib root c m) (n : Nat) : Inv lib root c { m with wsRun := n } :=
  ⟨h.sameRoot, h.accepted, h.growing, h.number, h.begins, h.closed⟩

theorem Inv.settleRun (h : Inv lib root c m) : Inv lib root c m.settleRun := by
  unfold SchemaMatcher.settleRun
  split
  · exact h.wsRun 0
  · exact h

theorem Inv.parse_push (hlib : lib.Correct) (h : Inv lib root c m)
    (hopen : m.accepted = true → m.numberOpen = true) (t : Bytes) :
    Inv lib root (c ++ t) ((m.push lib t).parse lib) := by
  have hbytes : m.bytes ++ t = c ++ t := by rw [h.growing hopen]
  have hscan : (m.push lib t).scan = scanRaw lib (m.push lib t).bytes (m.push lib t).root := rfl
  have hroot : (m.push lib t).root = root := h.sameRoot
  have hclosed : m.accepted = true → m.numberOpen = false → Conforms lib root (m.bytes ++ t) ∧
      ∃ w, IsSpace w ∧ c ++ t = m.bytes ++ t ++ w := fun hacc hno => by
    rw [hopen hacc] at hno
    cases hno
  obtain ⟨v, htakes⟩ | heq | ⟨heq, hends⟩ := parse_cases lib (m.push lib t)
  · obtain ⟨d, htext, rfl, hstrict, hvalid⟩ := htakes.conforms hlib.sound hscan
    rw [parse_takes htakes]
    refine ⟨h.sameRoot, fun _ => rfl, fun _ => hbytes, fun hgrow => ?_, fun _ _ => ⟨[], d, ?_⟩, fun _ _ => ?_⟩
    · obtain ⟨text, rfl⟩ := eq_num_of_isNumber (Bool.and_eq_true_iff.1 hgrow).1
      exact numberBegun_of_isText htext
    · rw [append_nil]
      exact htext
    · exact ⟨⟨d, htext, hstrict, hroot ▸ hvalid⟩, [], nofun, by rw [append_nil]; exact hbytes.symm⟩
  · rw [heq]
    exact ⟨h.sameRoot, h.accepted, fun _ => hbytes, fun hnum => (h.number hnum).append t, nofun, hclosed⟩
  · rw [heq]
    refine ⟨h.sameRoot, h.accepted, fun _ => hbytes, fun hnum => (h.number hnum).append t, fun _ hnum => ?_, hclosed⟩
    exact hlib.begins_of_ends ((h.number hnum).append t) hends

variable (lib) in
theorem advance_closed (h : (m.accepted && !m.numberOpen) = true) (t : Bytes) :
    ∃ n, m.advance lib t = { m with wsRun := n } := by
  refine ⟨_, if_pos ?_⟩
  rw [h, Bool.or_true]

variable (lib) in
theorem advance_open (herr : m.errored = false) (h : (m.accepted && !m.numberOpen) = false) (t : Bytes) :
    ∃ n, m.advance lib t = (({ m with wsRun := n }.push lib t).parse lib).settleRun := by
  refine ⟨_, if_neg ?_⟩
  rw [herr, h]
  decide

/-- **An allowed token keeps the flags and the buffer in step.** -/
theorem Inv.advance (hlib : lib.Correct) (h : Inv lib root c m) {t : Bytes}
    (hallowed : m.isTokenAllowed lib t = true) : Inv lib root (c ++ t) (m.advance lib t) := by
  have hlive : m.errored = false := by
    cases herr : m.errored with
    | false => rfl
    | true =>
      unfold isTokenAllowed at hallowed
      rw [herr, if_pos rfl] at hallowed
      cases hallowed
  cases hclosed : m.accepted && !m.numberOpen with
  | true =>
    -- the buffer stands still; the token is blank
    obtain ⟨n, hadvance⟩ := advance_closed lib hclosed t
    rw [hadvance]
    refine Inv.wsRun ?_ n
    obtain ⟨hacc, hno⟩ := Bool.and_eq_true_iff.1 hclosed
    rw [Bool.not_eq_true'] at hno
    have hws : IsSpace t := by
      unfold isTokenAllowed at hallowed
      rw [hlive, if_neg (by decide), hclosed, if_pos rfl, Bool.and_eq_true] at hallowed
      exact all_eq_true.1 hallowed.1
    obtain ⟨hconf, w, hw, rfl⟩ := h.closed hacc hno
    refine ⟨h.sameRoot, h.accepted, fun hopen => ?_, h.number, h.begins, fun _ _ => ⟨hconf, w ++ t, ?_, ?_⟩⟩
    · rw [hopen hacc] at hno
      cases hno
    · exact fun b hb => (mem_append.1 hb).elim (hw b) (hws b)
    · rw [append_assoc]
  | false =>
    obtain ⟨n, hadvance⟩ := advance_open lib hlive hclosed t
    rw [hadvance]
    refine Inv.settleRun (Inv.parse_push hlib (h.wsRun n) (fun hacc => ?_) t)
    change m.accepted = true at hacc
    rw [hacc, Bool.true_and, Bool.not_eq_false'] at hclosed
    exact hclosed

/-- The matcher after the tokens. -/
def after (lib : Serde) (root : SchemaNode) (ts : List Bytes) : SchemaMatcher :=
  runAll (fun t m => m.advance lib t) ts (new lib root)

theorem Inv.run (hlib : lib.Correct) : ∀ (ts : List Bytes) {c : Bytes} {m : SchemaMatcher}, Inv lib root c m →
    Along (fun t m => m.advance lib t) (fun t m => m.isTokenAllowed lib t = true) ts m →
    Inv lib root (c ++ ts.flatten) (runAll (fun t m => m.advance lib t) ts m)
  | [], c, m, h, _ => by
    rw [flatten_nil, append_nil]
    exact h
  | t :: ts, c, m, h, hrun => by
    rw [flatten_cons, ← append_assoc]
    exact Inv.run hlib ts (h.advance hlib hrun.1) hrun.2

end SchemaMatcher

namespace SchemaMatcher

end SchemaMatcher

end Hipfire.Schema

import Hipfire.Base.Lossy
/-!
# TextStream — decoded bytes as text, token by token

`TokenTextStream` holds back the beginning of a character that is cut short and emits everything in front of it.  What it has
emitted, followed by the lossy reading of what it holds and of what is still to come, is the lossy reading of all the bytes.
-/
namespace Hipfire.Tokens

open List

structure TokenTextStream where
  pending : List UInt8
  deriving DecidableEq, Repr

namespace TokenTextStream

def new : TokenTextStream := ⟨[]⟩

/-- The loop of `push_bytes`; nothing if it does not end within its fuel. -/
def pushLoop : Nat → List UInt8 → List UInt8 → Option (TokenTextStream × List UInt8)
  | 0, _, _ => none
  | fuel + 1, pending, out =>
    match fromUtf8 pending with
    | none => some (⟨[]⟩, out ++ pending)
    | some e =>
      let valid := pending.take e.validUpTo
      -- `from_utf8(&pending[..valid]).unwrap_or_default()`
      let out := out ++ if (fromUtf8 valid).isNone then valid else []
      match e.errorLen with
      | none => some (⟨pending.drop e.validUpTo⟩, out)
      | some bad => pushLoop fuel (pending.drop (e.validUpTo + bad)) (out ++ replacement)

def pushBytes (s : TokenTextStream) (bytes : List UInt8) : Option (TokenTextStream × List UInt8) :=
  pushLoop ((s.pending ++ bytes).length + 1) (s.pending ++ bytes) []

def flush (s : TokenTextStream) : TokenTextStream × List UInt8 := (⟨[]⟩, lossy s.pending)

/-- Calls of `push_bytes` one after the other, with what each returns. -/
def pushAll : TokenTextStream → List (List UInt8) → Option (TokenTextStream × List (List UInt8))
  | s, [] => some (s, [])
  | s, bytes :: chunks =>
    (s.pushBytes bytes).bind fun r => (pushAll r.1 chunks).map fun rest => (rest.1, r.2 :: rest.2)

/-- **The loop**: it ends, holds back at most three bytes, and what it emits and holds reads as what it was given. -/
theorem pushLoop_spec : ∀ {fuel : Nat} {pending : List UInt8} (out : List UInt8), pending.length < fuel →
    ∃ s more, pushLoop fuel pending out = some (s, out ++ more) ∧ s.pending.length ≤ 3 ∧
      ∀ t, lossy (pending ++ t) = more ++ lossy (s.pending ++ t)
  | fuel + 1, pending, out, hfuel => by
    unfold pushLoop
    split
    · rename_i hok
      exact ⟨⟨[]⟩, pending, rfl, Nat.zero_le _, fromUtf8_ok hok⟩
    rename_i e herror
    obtain ⟨hle, hlossy, hvalid, hstop⟩ := fromUtf8_error herror
    dsimp only
    rw [hvalid, if_pos (show Option.isNone (none : Option Utf8Error) = true from rfl)]
    split
    · rename_i hlen
      rw [hlen] at hstop
      exact ⟨⟨pending.drop e.validUpTo⟩, _, rfl, scanChar_cut hstop, hlossy⟩
    · rename_i bad hlen
      rw [hlen] at hstop
      obtain ⟨hpos, hbad⟩ := scanChar_invalid hstop
      rw [length_drop] at hbad
      have hrest : (pending.drop (e.validUpTo + bad)).length < fuel := by
        rw [length_drop]
        omega
      obtain ⟨s, more, hloop, hheld, hmore⟩ := pushLoop_spec (out ++ pending.take e.validUpTo ++ replacement) hrest
      refine ⟨s, pending.take e.validUpTo ++ replacement ++ more, ?_, hheld, fun t => ?_⟩
      · rw [hloop, append_assoc, append_assoc, append_assoc]
      · rw [hlossy, lossy_invalid hstop, drop_drop, hmore, append_assoc, append_assoc]

theorem pushBytes_spec (s : TokenTextStream) (bytes : List UInt8) :
    ∃ s' out, s.pushBytes bytes = some (s', out) ∧ s'.pending.length ≤ 3 ∧
      ∀ t, lossy (s.pending ++ (bytes ++ t)) = out ++ lossy (s'.pending ++ t) := by
  obtain ⟨s', out, hloop, hheld, hout⟩ := pushLoop_spec [] (Nat.lt_succ_self (s.pending ++ bytes).length)
  exact ⟨s', out, hloop, hheld, fun t => by rw [← append_assoc, hout]⟩

theorem pushAll_spec : ∀ (chunks : List (List UInt8)) (s : TokenTextStream), s.pending.length ≤ 3 →
    ∃ s' outs, s.pushAll chunks = some (s', outs) ∧ s'.pending.length ≤ 3 ∧
      lossy (s.pending ++ chunks.flatten) = outs.flatten ++ lossy s'.pending
  | [], s, hs => ⟨s, [], rfl, hs, by rw [flatten_nil, append_nil]; rfl⟩
  | bytes :: chunks, s, _ => by
    obtain ⟨s₁, out, hpush, hheld, hout⟩ := pushBytes_spec s bytes
    obtain ⟨s', outs, hall, hheld', houts⟩ := pushAll_spec chunks s₁ hheld
    refine ⟨s', out :: outs, ?_, hheld', ?_⟩
    · rw [pushAll, hpush, Option.bind_some, hall]
      rfl
    · rw [flatten_cons, hout, houts, flatten_cons, append_assoc]

/-- **Streaming equals batch**: however the bytes are cut into calls, the calls return, between them at most three bytes are
held back, and what they return followed by the flush is the lossy reading of all the bytes. -/
theorem stream_decode_is_batch (chunks : List (List UInt8)) :
    ∃ s outs, new.pushAll chunks = some (s, outs) ∧ s.pending.length ≤ 3 ∧
      outs.flatten ++ s.flush.2 = lossy chunks.flatten := by
  obtain ⟨s, outs, hall, hheld, houts⟩ := pushAll_spec chunks new (Nat.zero_le _)
  exact ⟨s, outs, hall, hheld, houts.symm⟩

/-- A character over three calls, an overlong form, and a character cut short. -/
example : (new.pushAll [[0x41, 0xE4], [0xB8], [0xAD, 0xC0, 0xAF], [0xF0, 0x9F]]).map (fun r => (r.2, r.1.flush.2)) =
    some ([[0x41], [], [0xE4, 0xB8, 0xAD] ++ replacement ++ replacement, []], replacement) := by decide

end TokenTextStream
end Hipfire.Tokens

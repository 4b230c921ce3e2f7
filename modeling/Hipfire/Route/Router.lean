import Hipfire.Base.Kmp
import Hipfire.Route.Grammar
/-!
# Router — the tool-output router

Text arrives in chunks.  Outside a span everything is visible but a possible beginning of a marker, which is held back;
inside a span the body is kept until the closer.  Texts are their UTF-8 bytes, as in the buffer of the source; how a body
is parsed is a parameter of everything here but `strictGrammar`.
-/
namespace Hipfire.Route

/-- `"<tool_call>"`. -/
def toolCallOpen : List UInt8 := [0x3C, 0x74, 0x6F, 0x6F, 0x6C, 0x5F, 0x63, 0x61, 0x6C, 0x6C, 0x3E]

/-- `"</tool_call>"`. -/
def toolCallClose : List UInt8 := [0x3C, 0x2F, 0x74, 0x6F, 0x6F, 0x6C, 0x5F, 0x63, 0x61, 0x6C, 0x6C, 0x3E]

def openFail : List Nat := kmpFail toolCallOpen

def closeFail : List Nat := kmpFail toolCallClose

inductive DelimHit
  | open
  | close
  deriving DecidableEq, Repr

def DelimHit.marker : DelimHit → List UInt8
  | .open => toolCallOpen
  | .close => toolCallClose

def DelimHit.len (hit : DelimHit) : Nat := hit.marker.length

/-- Progress in both markers. -/
structure DelimCursor where
  openLen : Nat
  closeLen : Nat
  deriving DecidableEq, Repr

def DelimCursor.reset : DelimCursor := ⟨0, 0⟩

def DelimCursor.holdLen (c : DelimCursor) : Nat := max c.openLen c.closeLen

def DelimCursor.feed (c : DelimCursor) (b : UInt8) : Option DelimHit × DelimCursor :=
  let openLen := advanceKmp c.openLen b toolCallOpen openFail
  let closeLen := advanceKmp c.closeLen b toolCallClose closeFail
  if closeLen = toolCallClose.length then (some .close, .reset)
  else if openLen = toolCallOpen.length then (some .open, .reset)
  else (none, ⟨openLen, closeLen⟩)

/-- The largest index at most `n` that does not split a code point. -/
def utf8SafeSplit (s : List UInt8) (n : Nat) : Nat :=
  let rec back : Nat → Nat
    | 0 => 0
    | k + 1 =>
      if k + 1 < s.length ∧ (s.getD (k + 1) 0) &&& 0b11000000 = 0b10000000 then back k else k + 1
  back (min n s.length)

inductive RouteState
  | normal
  | inToolCall
  deriving DecidableEq, Repr

inductive ToolRouteError
  | malformedToolProtocol (detail : String)
  deriving DecidableEq, Repr

def strayCloser : ToolRouteError := .malformedToolProtocol "stray </tool_call> without open span"

def nestedOpener : ToolRouteError := .malformedToolProtocol "nested <tool_call> opener inside an open tool-call span"

def badBody : ToolRouteError :=
  .malformedToolProtocol "tool_call body is empty, truncated, or not fully valid JSON/Qwen XML"

def unclosedSpan : ToolRouteError := .malformedToolProtocol "unclosed <tool_call> span at end of output"

inductive ToolRouteEvent (C : Type)
  | visibleText (text : List UInt8)
  | toolCall (call : C)

structure ToolOutputRouter (C : Type) where
  enabled : Bool
  state : RouteState
  buf : List UInt8
  cursor : DelimCursor
  /-- Leading bytes of `buf` the cursor has been fed. -/
  seen : Nat
  completed : List C
  malformed : Option ToolRouteError

variable {C : Type}

namespace ToolOutputRouter

def new : ToolOutputRouter C := ⟨true, .normal, [], .reset, 0, [], none⟩

/-- `catch_up_delim` from `cursor`, with `seen` bytes fed and `rest` to come: the hit with its place in the buffer, the
cursor and the bytes fed then. -/
def catchUp : DelimCursor → Nat → List UInt8 → Option (DelimHit × Nat × Nat) × DelimCursor × Nat
  | cursor, seen, [] => (none, cursor, seen)
  | cursor, seen, b :: rest =>
    match cursor.feed b with
    | (some hit, cursor) => (some (hit, seen + 1 - hit.len, seen + 1), cursor, seen + 1)
    | (none, cursor) => catchUp cursor (seen + 1) rest

def catchUpDelim (r : ToolOutputRouter C) : Option (DelimHit × Nat × Nat) × ToolOutputRouter C :=
  match catchUp r.cursor r.seen (r.buf.drop r.seen) with
  | (hit, cursor, seen) => (hit, { r with cursor := cursor, seen := seen })

def consumeThrough (r : ToolOutputRouter C) (stop : Nat) : ToolOutputRouter C :=
  { r with buf := r.buf.drop stop, seen := 0, cursor := .reset }

/-- An event for a text that is not empty. -/
def visible (text : List UInt8) : List (ToolRouteEvent C) := if text = [] then [] else [.visibleText text]

/-- `step_normal`: whether to go on, the new events, the router.  A latched error stops the drain. -/
def stepNormal (r : ToolOutputRouter C) : Bool × List (ToolRouteEvent C) × ToolOutputRouter C :=
  match r.catchUpDelim with
  | (none, r) =>
    let hold := r.cursor.holdLen
    let emitLen := utf8SafeSplit r.buf (r.buf.length - hold)
    if hold < r.buf.length ∧ 0 < emitLen then
      (true, visible (r.buf.take emitLen), { r with buf := r.buf.drop emitLen, seen := r.seen - emitLen })
    else (false, [], r)
  | (some (.close, start, stop), r) =>
    (false, visible (r.buf.take start), { r.consumeThrough stop with malformed := some strayCloser })
  | (some (.open, start, stop), r) =>
    (true, visible (r.buf.take start), { r.consumeThrough stop with state := .inToolCall })

def stepInToolCall (parse : List UInt8 → Option C) (r : ToolOutputRouter C) :
    Bool × List (ToolRouteEvent C) × ToolOutputRouter C :=
  match r.catchUpDelim with
  | (none, r) => (false, [], r)
  | (some (.open, _, _), r) => (false, [], { r with malformed := some nestedOpener })
  | (some (.close, start, stop), r) =>
    let body := r.buf.take start
    let r := { r.consumeThrough stop with state := .normal }
    match parse body with
    | some call => (true, [.toolCall call], { r with completed := r.completed ++ [call] })
    | none => (false, [], { r with malformed := some badBody })

def step (parse : List UInt8 → Option C) (r : ToolOutputRouter C) : Bool × List (ToolRouteEvent C) × ToolOutputRouter C :=
  match r.state with
  | .normal => r.stepNormal
  | .inToolCall => r.stepInToolCall parse

/-- The loop of `drain`; every turn that goes on shortens the buffer. -/
def drainLoop (parse : List UInt8 → Option C) : Nat → ToolOutputRouter C → List (ToolRouteEvent C) × ToolOutputRouter C
  | 0, r => ([], r)
  | fuel + 1, r =>
    if r.malformed.isSome then ([], r)
    else
      match r.step parse with
      | (true, events, r) => (events ++ (drainLoop parse fuel r).1, (drainLoop parse fuel r).2)
      | (false, events, r) => (events, r)

/-- `drain`: what was collected before an error is delivered first. -/
def drain (parse : List UInt8 → Option C) (r : ToolOutputRouter C) :
    Except ToolRouteError (List (ToolRouteEvent C)) × ToolOutputRouter C :=
  match drainLoop parse (r.buf.length + 1) r with
  | (events, r) =>
    match r.malformed with
    | some err => (if events.isEmpty then .error err else .ok events, r)
    | none => (.ok events, r)

def push (parse : List UInt8 → Option C) (r : ToolOutputRouter C) (chunk : List UInt8) :
    Except ToolRouteError (List (ToolRouteEvent C)) × ToolOutputRouter C :=
  if !r.enabled then (.ok (visible chunk), r)
  else
    match r.malformed with
    | some err => (.error err, r)
    | none => if chunk = [] then (.ok [], r) else { r with buf := r.buf ++ chunk }.drain parse

/-- `finish` consumes the router. -/
def finish (parse : List UInt8 → Option C) (r : ToolOutputRouter C) : Except ToolRouteError (List (ToolRouteEvent C)) :=
  if !r.enabled then .ok []
  else
    match r.malformed with
    | some err => .error err
    | none =>
      match r.drain parse with
      | (.error err, _) => .error err
      | (.ok events, r) =>
        match r.state with
        | .normal => .ok (events ++ visible r.buf)
        | .inToolCall => .error unclosedSpan

/-- What every call returns when the text arrives in `chunks` and then ends. -/
def results (parse : List UInt8 → Option C) : ToolOutputRouter C → List (List UInt8) →
    List (Except ToolRouteError (List (ToolRouteEvent C)))
  | r, [] => [r.finish parse]
  | r, chunk :: chunks => (r.push parse chunk).1 :: results parse (r.push parse chunk).2 chunks

end ToolOutputRouter

/-- The events delivered up to the first error. -/
def delivered : List (Except ToolRouteError (List (ToolRouteEvent C))) → List (ToolRouteEvent C)
  | [] => []
  | .ok events :: rs => events ++ delivered rs
  | .error _ :: _ => []

/-- The first error returned. -/
def failure : List (Except ToolRouteError (List (ToolRouteEvent C))) → Option ToolRouteError
  | [] => none
  | .ok _ :: rs => failure rs
  | .error e :: _ => some e

/-- The strict grammar on the bytes of a body, which are always whole characters. -/
def strictGrammar {J : Type} (json : SerdeJson J) (body : List UInt8) : Option (ToolCall J) :=
  (String.fromUTF8? ⟨body.toArray⟩).bind fun s => parseStrictToolCallBody json s.toList

end Hipfire.Route

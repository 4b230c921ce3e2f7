import Hipfire.Base.Json
import Hipfire.Base.Search
import Hipfire.Base.Utf8
/-!
# Matcher — the grammar of JSON tool calls (`saddle-core`, `grammar.rs`, `json`)

From the marker that opens a tool call to the arguments only a header that names a tool may be sampled; in the arguments the
close marker is refused while a required field is missing or the outer object is open.  Texts are UTF-8 bytes.
-/
namespace Hipfire.Calls

open Json (quote backslash openBrace closeBrace quoted)

abbrev Text := List UInt8

/-- An ASCII literal. -/
def ascii (s : String) : Text := s.toList.map (fun c => UInt8.ofNat c.toNat)

def openMarker : Text := ascii "<tool_call>"

def closeMarker : Text := ascii "</tool_call>"

/-! ## The compiled grammar -/

structure ToolSchema where
  name : Text
  required : List Text
deriving DecidableEq

/-- The thresholds of the repetition guard. -/
structure Config where
  ngramWindow : Nat
  ngramMinRepeats : Nat
  ngramLenMin : Nat
  ngramLenMax : Nat
deriving DecidableEq

def Config.default : Config := ⟨256, 6, 3, 32⟩

structure CompiledGrammar where
  tools : List ToolSchema
  config : Config
deriving DecidableEq

/-- `\n{"name": "<name>", "arguments": `. -/
def ToolSchema.header (t : ToolSchema) : Text :=
  ascii "\n\x7b\"name\": \"" ++ t.name ++ ascii "\", \"arguments\": "

/-! ## Braces outside strings -/

/-- Brace depth, and whether the place is in a JSON string or after a backslash there. -/
structure ArgsScan where
  depth : Int
  inString : Bool
  escape : Bool
deriving DecidableEq, Repr

def ArgsScan.start : ArgsScan := ⟨0, false, false⟩

def ArgsScan.step (s : ArgsScan) (byte : UInt8) : ArgsScan :=
  if s.escape then { s with escape := false }
  else if s.inString then
    if byte = backslash then { s with escape := true }
    else if byte = quote then { s with inString := false }
    else s
  else if byte = quote then { s with inString := true }
  else if byte = openBrace then { s with depth := s.depth + 1 }
  else if byte = closeBrace then { s with depth := s.depth - 1 }
  else s

def ArgsScan.run (s : ArgsScan) (text : Text) : ArgsScan := text.foldl ArgsScan.step s

/-- `would_close_args_body`. -/
def wouldCloseArgsBody : Bool → ArgsScan → Text → Bool
  | _, _, [] => false
  | entered, s, byte :: text =>
    let s' := s.step byte
    let structural := !s.escape && !s.inString
    if structural && byte == closeBrace && entered && decide (s'.depth ≤ 0) then true
    else wouldCloseArgsBody (entered || (structural && byte == openBrace && decide (1 ≤ s'.depth))) s' text

/-- `outer_closed_before_marker`: whether the outer object is closed where a close marker, or the start of one at the end,
first begins outside a string. -/
def outerClosedBeforeMarker : ArgsScan → Text → Bool
  | _, [] => true
  | s, byte :: text =>
    if !s.inString && (decide (closeMarker <+: byte :: text) || decide (byte :: text <+: closeMarker)) then
      decide (s.depth < 0)
    else outerClosedBeforeMarker (s.step byte) text

/-! ## Markers -/

/-- The text contains the marker or ends with the start of one. -/
def tailMatchesMarker (s marker : Text) : Bool :=
  (cutAt marker s).isSome || (List.range' 1 marker.length).any (fun n => decide (marker.take n <:+ s))

def touchesCloseMarker (s : Text) : Bool := tailMatchesMarker s closeMarker

def hasClosePrefix (s : Text) : Bool := (List.range' 1 closeMarker.length).any (fun n => decide (closeMarker.take n <:+ s))

/-- One is an initial part of the other, for one of the continuations. -/
def checkAgainstConts (s : Text) (conts : List Text) : Bool :=
  conts.any (fun cont => decide (s <+: cont) || decide (cont <+: s))

/-! ## The repetition guard -/

/-- The last `keep` bytes, from the next character boundary on. -/
def keepLast (keep : Nat) (s : Text) : Text :=
  if keep < s.length then (s.drop (s.length - keep)).dropWhile isContinuation else s

def isUniformByte : Text → Bool
  | [] => true
  | first :: s => s.all (fun b => b == first)

/-- The end of the buffer is one block, not of one byte alone, repeated. -/
def detectNgramLoop (config : Config) (buf : Text) : Bool :=
  (List.range' config.ngramLenMin (config.ngramLenMax + 1 - config.ngramLenMin)).any (fun len =>
    let needed := len * config.ngramMinRepeats
    if buf.length < needed then false
    else
      let tail := buf.drop (buf.length - needed)
      let first := tail.take len
      !isUniformByte first &&
        (List.range' 1 (config.ngramMinRepeats - 1)).all (fun r => (tail.drop (r * len)).take len == first))

/-! ## The matcher -/

inductive State where
  | out
  | afterOpen
  | inArgs
deriving DecidableEq, Repr

structure Matcher where
  state : State
  /-- Bytes since the last firm transition. -/
  partialBuf : Text
  /-- The end of the arguments, for the required fields. -/
  ngramHistory : Text
  /-- The end of the arguments outside strings, for the repetition guard. -/
  attractorBuf : Text
  attractorDetected : Bool
  currentTool : Option Nat
  args : ArgsScan
deriving DecidableEq

def Matcher.fresh : Matcher := ⟨.out, [], [], [], false, none, .start⟩

section

variable (g : CompiledGrammar) (m : Matcher)

/-- The required fields of the selected tool. -/
def CompiledGrammar.requiredOf (tool : Option Nat) : List Text :=
  match tool.bind (fun i => g.tools[i]?) with
  | some schema => schema.required
  | none => []

def Matcher.requiredFieldsSatisfied : Bool :=
  (g.requiredOf m.currentTool).all (fun name => (cutAt (quoted name) m.ngramHistory).isSome)

def Matcher.updateNgramHistory (text : Text) : Matcher :=
  { m with ngramHistory := keepLast g.config.ngramWindow (m.ngramHistory ++ text) }

/-- One byte outside strings. -/
def Matcher.pushAttractorByte (byte : UInt8) : Matcher :=
  if m.attractorDetected then m
  else if 128 ≤ byte then m
  else
    let buf := m.attractorBuf ++ [byte]
    let buf := buf.drop (buf.length - g.config.ngramWindow)
    { m with attractorBuf := buf, attractorDetected := detectNgramLoop g.config buf }

def Matcher.pushByte (byte : UInt8) : Matcher :=
  let m' := if m.args.escape || m.args.inString then m else m.pushAttractorByte g byte
  { m' with args := m.args.step byte }

def Matcher.updateArgsBraceState (text : Text) : Matcher := text.foldl (fun m byte => m.pushByte g byte) m

def Matcher.isFree : Bool :=
  match m.state with
  | .out => true
  | .afterOpen => false
  | .inArgs =>
    if m.attractorDetected then false
    else if !m.requiredFieldsSatisfied g then false
    else if 0 ≤ m.args.depth then false
    else !hasClosePrefix m.partialBuf

def Matcher.isTokenAllowed (text : Text) : Bool :=
  if text.isEmpty then true
  else if m.isFree g then true
  else
    let combined := m.partialBuf ++ text
    match m.state with
    | .out => tailMatchesMarker combined openMarker
    | .afterOpen => checkAgainstConts combined (g.tools.map ToolSchema.header)
    | .inArgs =>
      if !m.requiredFieldsSatisfied g then
        !touchesCloseMarker combined && !wouldCloseArgsBody (decide (1 ≤ m.args.depth)) m.args text
      else if !m.attractorDetected && decide (0 ≤ m.args.depth) then
        if touchesCloseMarker combined then outerClosedBeforeMarker m.args text else true
      else tailMatchesMarker combined closeMarker

/-! ## Transitions -/

inductive Transition where
  | stay (m : Matcher)
  | advanced (m : Matcher)

/-- The first tool whose header the buffer starts with, and the rest of the buffer. -/
def matchHeader : List ToolSchema → Nat → Text → Option (Nat × Text)
  | [], _, _ => none
  | t :: tools, i, buf =>
    match stripStart t.header buf with
    | some rest => some (i, rest)
    | none => matchHeader tools (i + 1) buf

/-- Into the arguments; `rest` is the start of them. -/
def Matcher.enterArgs (tool : Nat) (rest : Text) : Matcher :=
  let m' := { m with partialBuf := rest, state := .inArgs, currentTool := some tool, args := .start }
  if rest.isEmpty then m' else (m'.updateNgramHistory g rest).updateArgsBraceState g rest

/-- Out of the arguments: every field but the buffer is reset; `rest` follows the close marker. -/
def Matcher.afterClose (rest : Text) : Matcher := ⟨.out, rest, [], [], false, none, .start⟩

def Matcher.transitionOnce : Transition :=
  match m.state with
  | .out =>
    match cutAt openMarker m.partialBuf with
    | some (_, rest) => .advanced { m with partialBuf := rest, state := .afterOpen }
    | none => .stay { m with partialBuf := keepLast (openMarker.length - 1) m.partialBuf }
  | .afterOpen =>
    match matchHeader g.tools 0 m.partialBuf with
    | some (tool, rest) => .advanced (m.enterArgs g tool rest)
    | none => .stay m
  | .inArgs =>
    match cutAt closeMarker m.partialBuf with
    | some (_, rest) => .advanced (Matcher.afterClose rest)
    | none => .stay { m with partialBuf := keepLast (closeMarker.length - 1) m.partialBuf }

/-- The loop of `advance`; every transition takes a marker or a header off the buffer. -/
def settle : Nat → Matcher → Matcher
  | 0, m => m
  | fuel + 1, m =>
    match m.transitionOnce g with
    | .stay m' => m'
    | .advanced m' => settle fuel m'

/-- The text is taken in; in the arguments it is scanned. -/
def Matcher.feed (text : Text) : Matcher :=
  let m := if m.state = .inArgs then (m.updateNgramHistory g text).updateArgsBraceState g text else m
  { m with partialBuf := m.partialBuf ++ text }

def Matcher.advance (text : Text) : Matcher :=
  if text.isEmpty then m
  else
    let m := m.feed g text
    settle g (m.partialBuf.length + 1) m

end

end Hipfire.Calls

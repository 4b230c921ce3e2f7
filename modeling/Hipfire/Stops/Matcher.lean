import Hipfire.Base.Holdback
import Hipfire.Base.Utf8
import Hipfire.Schema.Values
/-!
# Matcher — stop sequences

`hipfire-runtime/stop_sequence.rs`: the request's `stop` field, and the matcher that looks for its strings in the text that
goes to the client.  It holds back the longest tail that could still grow into a stop.  Texts are their UTF-8 bytes.
-/
namespace Hipfire.Stops

abbrev Bytes := List UInt8

/-! ## The request -/

def maxStopSequences : Nat := 4

def maxStopChars : Nat := 64

inductive StopError where
  | notStrings
  | tooMany (got : Nat)
  | notString
  | tooLong
deriving DecidableEq

/-- The entries of an array, the empty ones left out. -/
def parseEntries : List Schema.Value → Except StopError (List String)
  | [] => .ok []
  | .string s :: entries =>
    if maxStopChars < s.length then .error .tooLong
    else do
      let stops ← parseEntries entries
      return if s = [] then stops else String.ofList s :: stops
  | _ :: _ => .error .notString

def parseStops (entries : List Schema.Value) : Except StopError (List String) :=
  if maxStopSequences < entries.length then .error (.tooMany entries.length) else parseEntries entries

def parseStopField : Option Schema.Value → Except StopError (List String)
  | none | some .null => .ok []
  | some (.string s) => parseStops [.string s]
  | some (.array entries) => parseStops entries
  | some _ => .error .notStrings

/-! ## The matcher -/

structure StopMatcher where
  stops : List Bytes
  /-- Of the longest stop. -/
  maxLen : Nat
  held : Bytes
  matched : Bool

/-- The stops that are not empty. -/
def stopsOf (stops : List String) : List Bytes := (stops.filter (· ≠ "")).map textBytes

/-- `is_char_boundary`. -/
def isCharBoundary (s : Bytes) (i : Nat) : Bool :=
  i = 0 || i = s.length || (s[i]?).any fun b => !isContinuation b

namespace StopMatcher

def new (stops : List String) : StopMatcher where
  stops := stopsOf stops
  maxLen := ((stopsOf stops).map List.length).max?.getD 0
  held := []
  matched := false

variable (m : StopMatcher)

def isPartial (held : Bytes) (k : Nat) : Bool :=
  isCharBoundary held (held.length - k) &&
    m.stops.any fun stop => k < stop.length && (held.drop (held.length - k)).isPrefixOf stop

/-- Of the longest suffix of `held` that is a proper prefix of some stop. -/
def partialStopSuffixLen (held : Bytes) : Nat := findDown (m.isPartial held) (min held.length (m.maxLen - 1))

/-- The matcher after a chunk, and what may be sent. -/
def push (text : Bytes) : StopMatcher × Bytes :=
  if m.matched then (m, [])
  else if m.stops = [] then (m, text)
  else
    let held := m.held ++ text
    match earliest m.stops held with
    | some place => ({ m with matched := true, held := [] }, held.take place)
    | none =>
      let sent := held.length - m.partialStopSuffixLen held
      ({ m with held := held.drop sent }, held.take sent)

def finish : StopMatcher × Bytes := if m.matched then (m, []) else ({ m with held := [] }, m.held)

end StopMatcher

/-! ## A stream -/

/-- Chunks pushed in order up to the first match: the matcher, the text pushed and the text sent. -/
def pushAll : StopMatcher → List Bytes → StopMatcher × Bytes × Bytes
  | m, [] => (m, [], [])
  | m, chunk :: chunks =>
    let r := m.push chunk
    if r.1.matched then (r.1, chunk, r.2)
    else
      let t := pushAll r.1 chunks
      (t.1, chunk ++ t.2.1, r.2 ++ t.2.2)

/-- What is sent of a stream, and whether a stop matched. -/
def run (stops : List String) (chunks : List String) : Bytes × Bool :=
  let r := pushAll (.new stops) (chunks.map textBytes)
  (r.2.2 ++ r.1.finish.2, r.1.matched)

end Hipfire.Stops

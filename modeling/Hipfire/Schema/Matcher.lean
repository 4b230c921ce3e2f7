import Hipfire.Schema.Scan
/-!
# Matcher — the incremental schema matcher

`advance` adds bytes to the buffer, scans it again and parses it again; `is_token_allowed` decides a candidate token from the
last scan where it can and simulates the advance where it cannot.  Parser frames of the matcher itself are never pushed in
the source, so the state has none.
-/
namespace Hipfire.Schema

open Json

structure SchemaMatcher where
  root : SchemaNode
  bytes : Bytes
  accepted : Bool
  numberOpen : Bool
  errored : Bool
  wsRun : Nat
  scan : RawScan

def wsRunCap : Nat := 32

namespace SchemaMatcher

def new (lib : Serde) (root : SchemaNode) : SchemaMatcher where
  root := root
  bytes := []
  accepted := false
  numberOpen := false
  errored := false
  wsRun := 0
  scan := scanRaw lib [] root

end SchemaMatcher

/-! ## Counting the items of the root array -/

structure ItemCount where
  depth : Int
  inString : Bool
  escape : Bool
  commas : Nat
  hasContent : Bool

def ItemCount.items (c : ItemCount) : Nat := c.commas + if c.hasContent then 1 else 0

/-- Something other than a comma stands in the root array. -/
def ItemCount.content (c : ItemCount) : ItemCount := { c with hasContent := c.hasContent || c.depth = 1 }

def countItems : ItemCount → Bytes → Nat
  | c, [] => c.items
  | c, b :: bs =>
    if c.inString then
      if c.escape then countItems { c with escape := false } bs
      else if b = 92 then countItems { c with escape := true } bs
      else if b = 34 then countItems { c with inString := false } bs
      else countItems c bs
    else if b = 34 then countItems { c.content with inString := true } bs
    else if b = 91 || b = 123 then countItems { c.content with depth := c.depth + 1 } bs
    else if b = 93 || b = 125 then
      if c.depth - 1 = 0 then c.items else countItems { c with depth := c.depth - 1 } bs
    else if b = 44 then
      if c.depth = 1 then countItems { c with commas := c.commas + 1, hasContent := false } bs else countItems c bs
    else if isWs b then countItems c bs
    else countItems c.content bs

def countRootArrayItems (bytes : Bytes) : Option Nat :=
  match bytes.dropWhile isWs with
  | 91 :: bs => some (countItems ⟨1, false, false, 0, false⟩ bs)
  | _ => none

/-! ## Parsing the buffer -/

def isExponentMark (b : UInt8) : Bool := b = 101 || b = 69

/-- The number may still grow into one the schema admits. -/
def numberCouldGrowToMatch (lib : Serde) (value : Value) (schema : SchemaNode) (raw : Bytes) : Bool :=
  let numBytes := raw.dropWhile isWs
  match schema with
  | .number | .any => true
  | .integer =>
    match value with
    | .number n => n.isI64 || n.isU64 || n.isF64 && !numBytes.any isExponentMark
    | _ => false
  | .const target => target.isNumber && numberTextCouldMatch lib numBytes target
  | .enum values => values.any fun v => v.isNumber && numberTextCouldMatch lib numBytes v
  | _ => false

/-- The scan alone proves that no continuation conforms. -/
def RawScan.deadEnd (scan : RawScan) : Bool :=
  scan.duplicateKeys || scan.unknownKey || scan.requiredMissingOnClose || scan.minItemsUnmetOnClose ||
    scan.arrayOverMax || scan.numberDeadEnd

/-- A byte a number may end with, or go on with. -/
def continuesNumber (b : UInt8) : Bool := isDigit b || b = 43 || b = 45 || b = 46 || isExponentMark b

def conforms (v : Value) (root : SchemaNode) : Bool :=
  match validate v root with
  | .ok _ => true
  | .error _ => false

/-- Too many items in a root array that is not closed yet. -/
def rootArrayFull (root : SchemaNode) (rest : Bytes) : Bool :=
  match root with
  | .array _ _ (some max) =>
    match countRootArrayItems rest with
    | some count => max < count
    | none => false
  | _ => false

def danglingPoint (root : SchemaNode) (rest : Bytes) : Bool :=
  match root with
  | .integer => rest.getLast? = some 46
  | _ => false

namespace SchemaMatcher

def fail (m : SchemaMatcher) : SchemaMatcher := { m with errored := true }

/-- The buffer parsed. -/
def parsed (lib : Serde) (m : SchemaMatcher) (rest : Bytes) (v : Value) : SchemaMatcher :=
  if v.isNumber && (rest.getLast?.map continuesNumber).getD false then
    if m.scan.duplicateKeys then m.fail
    else if conforms v m.root then { m with accepted := true, numberOpen := true }
    else if numberCouldGrowToMatch lib v m.root rest then m
    else m.fail
  else if m.scan.duplicateKeys then m.fail
  else if conforms v m.root then { m with accepted := true, numberOpen := false }
  else m.fail

/-- The buffer did not parse. -/
def unparsed (m : SchemaMatcher) (rest : Bytes) (e : Category) : SchemaMatcher :=
  if e ≠ .eof then m.fail
  else if m.scan.deadEnd then m.fail
  else if danglingPoint m.root rest then m.fail
  else if rootArrayFull m.root rest then m.fail
  else m

def parse (lib : Serde) (m : SchemaMatcher) : SchemaMatcher :=
  match m.bytes.dropWhile isWs with
  | [] => m
  | b :: bs =>
    if m.scan.deadEnd then m.fail
    else
      match lib.parse (b :: bs) with
      | .ok v => m.parsed lib (b :: bs) v
      | .error e => m.unparsed (b :: bs) e

def allWs (bytes : Bytes) : Bool := !bytes.isEmpty && bytes.all isWs

/-- The bytes in the buffer, scanned. -/
def push (lib : Serde) (m : SchemaMatcher) (bytes : Bytes) : SchemaMatcher :=
  { m with bytes := m.bytes ++ bytes, scan := scanRaw lib (m.bytes ++ bytes) m.root }

/-- White space inside a string is no run. -/
def settleRun (m : SchemaMatcher) : SchemaMatcher := if m.scan.inString then { m with wsRun := 0 } else m

def advance (lib : Serde) (m : SchemaMatcher) (bytes : Bytes) : SchemaMatcher :=
  let m := { m with wsRun := if allWs bytes then min (m.wsRun + 1) (2 ^ 64 - 1) else 0 }
  if m.errored || m.accepted && !m.numberOpen then m else ((m.push lib bytes).parse lib).settleRun

end SchemaMatcher

/-! ## Deciding a token -/

/-- Four hexadecimal digits of an escape, in a token. -/
def fragmentChar (bytes : Bytes) : Option Char :=
  match hex (bytes.take 4) with
  | some n => if isHigh n then none else some ((fromU32 n).getD replacement)
  | none => none

/-- How many bytes the character has that starts so; a byte that starts none counts one. -/
def charLen (b : UInt8) : Nat :=
  if 192 ≤ b ∧ b < 224 then 2 else if 224 ≤ b ∧ b < 240 then 3 else if 240 ≤ b ∧ b < 248 then 4 else 1

/-- `std::str::from_utf8`. -/
def fromUtf8 (bytes : Bytes) : Option Text := (String.fromUTF8? ⟨bytes.toArray⟩).map String.toList

/-- What a token adds to an open string, whether it closes it, and what follows the quote. -/
def decodeStringFragment : Nat → Bool → Text → Bytes → Option (Text × Bool × Bytes)
  | _, _, out, [] => some (out, false, [])
  | 0, _, _, _ :: _ => none
  | fuel + 1, true, out, b :: bs =>
    if b = 117 then
      match fragmentChar bs with
      | some c => decodeStringFragment fuel false (out ++ [c]) (bs.drop 4)
      | none => none
    else
      match simpleEscape b with
      | some c => decodeStringFragment fuel false (out ++ [c]) bs
      | none => none
  | fuel + 1, false, out, b :: bs =>
    if b = 34 then some (out, true, bs)
    else if b = 92 then if bs.isEmpty then none else decodeStringFragment fuel true out bs
    else if b < 32 then none
    else if bs.length + 1 < charLen b then none
    else
      match fromUtf8 ((b :: bs).take (charLen b)) with
      | some s => decodeStringFragment fuel false (out ++ s) ((b :: bs).drop (charLen b))
      | none => none

/-- The text begins one of the names. -/
def extendsTo (names : List Text) (cand : Text) : Bool := names.any fun k => (utf8 cand).isPrefixOf (utf8 k)

/-- The first byte that is not blank, if any, must satisfy this. -/
def firstMeaningful (p : UInt8 → Bool) (rest : Bytes) : Bool :=
  match rest.find? (!isWs ·) with
  | none => true
  | some first => p first

/-- After a string that is one of the members. -/
def memberFollow (valueAtRoot : Bool) (rest : Bytes) : Bool :=
  firstMeaningful (fun first => !valueAtRoot && (first = 44 || first = 125 || first = 93)) rest

/-- The token extends or ends a string that has to be one of the members. -/
def memberVerdict (members : List Text) (start : Text) (valueAtRoot : Bool) : Option (Text × Bool × Bytes) → Bool
  | some (decoded, false, _) => extendsTo members (start ++ decoded)
  | some (decoded, true, rest) => members.contains (start ++ decoded) && memberFollow valueAtRoot rest
  | none => false

/-- The token extends a key that has to be one of the names; a key that ends is left to the simulation. -/
def keyVerdict (names : List Text) (start : Text) : Option (Text × Bool × Bytes) → Option Bool
  | some (decoded, false, _) => some (extendsTo names (start ++ decoded))
  | some (_, true, _) => none
  | none => some false

namespace RawScan

def fragment (scan : RawScan) (bytes : Bytes) : Option (Text × Bool × Bytes) :=
  decodeStringFragment bytes.length scan.escapePending [] bytes

def keyFilterVerdict (scan : RawScan) (bytes : Bytes) : Option Bool :=
  scan.keyFilter.bind fun names => keyVerdict names scan.keyPrefixDecoded (scan.fragment bytes)

def valueFilterVerdict (scan : RawScan) (bytes : Bytes) : Option Bool :=
  scan.valueFilter.map fun members =>
    memberVerdict members scan.valuePrefixDecoded scan.valueAtRoot (scan.fragment bytes)

def satedVerdict (scan : RawScan) (bytes : Bytes) : Option Bool :=
  if scan.inStringSatedClosed then
    match scan.fragment bytes with
    | some (_, true, rest) => some (firstMeaningful (· = 125) rest)
    | _ => none
  else none

def inertVerdict (scan : RawScan) (bytes : Bytes) : Option Bool :=
  if !scan.escapePending && (fromUtf8 bytes).isSome && !bytes.contains 34 && !bytes.contains 92 && bytes.all (32 ≤ ·) then
    some true
  else none

def inStringVerdict (scan : RawScan) (bytes : Bytes) : Option Bool :=
  (scan.keyFilterVerdict bytes).or ((scan.valueFilterVerdict bytes).or
    ((scan.satedVerdict bytes).or (scan.inertVerdict bytes)))

/-- The first byte starts no token that is legal here. -/
def firstByteVerdict (scan : RawScan) (bytes : Bytes) : Option Bool :=
  match bytes with
  | first :: _ => if scan.structuralNext.contains first then none else some false
  | [] => none

def valueNextVerdict (scan : RawScan) (bytes : Bytes) : Option Bool :=
  match scan.valueNext with
  | some next => if firstMeaningful next.contains bytes then none else some false
  | none => none

/-- The token opens a string. -/
def openingVerdict (scan : RawScan) (bytes : Bytes) : Option Bool :=
  match bytes.dropWhile isWs with
  | 34 :: afterQuote =>
    let decoded := decodeStringFragment afterQuote.length false [] afterQuote
    match scan.valueStartFilter with
    | some members => some (memberVerdict members [] scan.valueAtRoot decoded)
    | none => scan.keyStartFilter.bind fun known => keyVerdict known [] decoded
  | _ => none

def structuralVerdict (scan : RawScan) (bytes : Bytes) : Option Bool :=
  (scan.firstByteVerdict bytes).or ((scan.valueNextVerdict bytes).or (scan.openingVerdict bytes))

end RawScan

/-- A byte that may go on with a literal: a number's, or a letter of `true`, `false`, `null`. -/
def continuesLiteral (b : UInt8) : Bool :=
  isDigit b || [46, 101, 69, 43, 45, 116, 114, 117, 102, 97, 108, 115, 110].contains b

/-- Where a number stands, as its bytes are read. -/
inductive NumberState where
  | sign | zero | digits | dot | frac | exp | expSign | expDigits

def NumberState.step : NumberState → UInt8 → Option NumberState
  | .sign, b => if b = 48 then some .zero else if isDigit b then some .digits else none
  | .zero, b => if b = 46 then some .dot else if isExponentMark b then some .exp else none
  | .digits, b =>
    if isDigit b then some .digits else if b = 46 then some .dot else if isExponentMark b then some .exp else none
  | .dot, b => if isDigit b then some .frac else none
  | .frac, b => if isDigit b then some .frac else if isExponentMark b then some .exp else none
  | .exp, b => if b = 43 || b = 45 then some .expSign else if isDigit b then some .expDigits else none
  | .expSign, b => if isDigit b then some .expDigits else none
  | .expDigits, b => if isDigit b then some .expDigits else none

def NumberState.start (b : UInt8) : Option NumberState :=
  if b = 45 then some .sign else if b = 48 then some .zero else if isDigit b then some .digits else none

/-- The bytes begin a number. -/
def jsonNumberPrefixAllows (num tok : Bytes) : Bool :=
  match num ++ tok with
  | [] => false
  | b :: bs => (bs.foldl (fun st b => st.bind (·.step b)) (NumberState.start b)).isSome

namespace RawScan

def tailFirstVerdict (scan : RawScan) (bytes : Bytes) : Option Bool :=
  match bytes with
  | first :: _ => if isWs first || scan.structuralNext.contains first || continuesLiteral first then none else some false
  | [] => none

def numberTailVerdict (scan : RawScan) (bytes : Bytes) : Option Bool :=
  if scan.numberTail && (scan.numberTailFree || scan.numberTailInteger) then
    if bytes.all fun b => continuesNumber b && (scan.numberTailFree || b ≠ 46) then
      some (jsonNumberPrefixAllows scan.numberText bytes)
    else none
  else none

def literalVerdict (scan : RawScan) (bytes : Bytes) : Option Bool :=
  (scan.tailFirstVerdict bytes).or (scan.numberTailVerdict bytes)

/-- What the last scan alone decides of a token. -/
def verdict (scan : RawScan) (bytes : Bytes) : Option Bool :=
  if scan.inString then scan.inStringVerdict bytes
  else if !scan.literalTail then scan.structuralVerdict bytes
  else scan.literalVerdict bytes

end RawScan

namespace SchemaMatcher

def isTokenAllowed (lib : Serde) (m : SchemaMatcher) (bytes : Bytes) : Bool :=
  if m.errored then false
  else if m.accepted && !m.numberOpen then bytes.all isWs && m.wsRun < wsRunCap
  else if !m.scan.inString && wsRunCap ≤ m.wsRun && allWs bytes then false
  else (m.scan.verdict bytes).getD (!(m.advance lib bytes).errored)

end SchemaMatcher

end Hipfire.Schema

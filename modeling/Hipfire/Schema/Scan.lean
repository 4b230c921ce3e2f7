import Hipfire.Schema.Values
/-!
# Scan — the raw byte scan of the buffer

`scan_raw` passes over the buffer once.  It keeps a stack of frames with the schema each position expects, notes what can
never be mended (a repeated key, an unknown key of a closed object, a close too early) and, from where the buffer ends, which
bytes may come next.
-/
namespace Hipfire.Schema

open Json

/-! ## Strings -/

/-- `char::from_u32`. -/
def fromU32 (n : Nat) : Option Char := if n.isValidChar then some (Char.ofNat n) else none

def replacement : Char := '�'

/-- The code point of a pair of surrogates. -/
def pairCode (hi lo : Nat) : Nat := 0x10000 + (hi - 0xD800) * 1024 + (lo - 0xDC00)

/-- `u32::from_str_radix(_, 16)` of four bytes; a sign in front is taken. -/
def hex (slice : Bytes) : Option Nat :=
  if slice.length < 4 then none
  else
    match slice with
    | 43 :: digits => hexNumber digits
    | digits => hexNumber digits

/-- Where the scan of a string ends. -/
inductive StringEnd where
  | closed (s : Text) (rest : Bytes)
  | unclosed (s : Text)
  /-- At a backslash, or at a `\u` whose digits are not there. -/
  | pending

/-- The bytes after an opening quote. -/
def scanString (lib : Serde) : Nat → Text → Bytes → StringEnd
  | 0, s, _ => .unclosed s
  | _ + 1, s, [] => .unclosed s
  | fuel + 1, s, b :: bs =>
    if b = quote then .closed s bs
    else if b = backslash then
      match bs with
      | [] => .pending
      | c :: cs =>
        if c = 117 then
          match hex (cs.take 4) with
          | none => .pending
          | some hi =>
            if isHigh hi then
              -- the two bytes between the digits are skipped, whatever they are
              match hex ((cs.drop 6).take 4) with
              | some lo =>
                if isLow lo then
                  scanString lib fuel (s ++ [(fromU32 (pairCode hi lo)).getD replacement]) (cs.drop 10)
                else scanString lib fuel (s ++ [replacement]) (cs.drop 4)
              | none => scanString lib fuel (s ++ [replacement]) (cs.drop 4)
            else scanString lib fuel (s ++ [(fromU32 hi).getD replacement]) (cs.drop 4)
        else scanString lib fuel (s ++ (simpleEscape c).toList) cs
    else
      scanString lib fuel (s ++ (fromUtf8Lossy lib.repair ((b :: bs).take (utf8Len b))).toList) ((b :: bs).drop (utf8Len b))

/-! ## Frames -/

inductive Phase where
  | key | colon | value | cont
deriving DecidableEq

inductive Frame where
  | object (keys : List Text) (phase : Phase) (schema pending : SchemaNode)
  | array (phase : Phase) (items : SchemaNode) (count minItems : Nat) (maxItems : Option Nat)

def Frame.phase : Frame → Phase
  | .object _ phase _ _ => phase
  | .array phase _ _ _ _ => phase

/-- The schema a value that starts here must satisfy; the innermost frame stands first. -/
def valueSchema (frames : List Frame) (root : SchemaNode) : Option SchemaNode :=
  match frames with
  | .object _ .value _ pending :: _ => some pending
  | .array .value items _ _ _ :: _ => some items
  | [] => some root
  | _ => none

/-- A value ended inside this frame. -/
def Frame.finish : Frame → Frame
  | .object keys _ schema pending => .object keys .cont schema pending
  | .array phase items count minItems maxItems =>
    .array .cont items (if phase = .value then count + 1 else count) minItems maxItems

def Frame.overMax : Frame → Bool
  | .object _ _ _ _ => false
  | .array phase _ count _ maxItems =>
    phase = .value &&
      match maxItems with
      | some max => max < count + 1
      | none => false

def finishHead : List Frame → List Frame
  | [] => []
  | frame :: frames => frame.finish :: frames

/-- What the loop carries. -/
structure ScanState where
  frames : List Frame := []
  duplicateKeys : Bool := false
  inString : Bool := false
  escapePending : Bool := false
  literalTail : Bool := false
  keyPrefixDecoded : Text := []
  valuePrefixDecoded : Text := []
  numberText : Bytes := []
  unknownKey : Bool := false
  requiredMissingOnClose : Bool := false
  minItemsUnmetOnClose : Bool := false
  arrayOverMax : Bool := false
  numberTail : Bool := false
  numberTailFree : Bool := false
  numberTailInteger : Bool := false
  numberDeadEnd : Bool := false

/-- The buffer ends here, or the scan goes on. -/
inductive Step where
  | stop (st : ScanState)
  | more (st : ScanState) (rest : Bytes)

def atKey : List Frame → Bool
  | .object _ .key _ _ :: _ => true
  | _ => false

/-- The schema of the value that follows the key. -/
def pendingOf (schema : SchemaNode) (s : Text) : SchemaNode :=
  match schema with
  | .object properties _ _ => (properties.lookup s).getD .any
  | _ => .any

def isUnknown (schema : SchemaNode) (s : Text) : Bool :=
  match schema with
  | .object properties _ false => (properties.lookup s).isNone
  | _ => false

/-- A key's closing quote; of `keys` only membership counts. -/
def ScanState.endKey (st : ScanState) (s : Text) : ScanState :=
  match st.frames with
  | .object keys _ schema _ :: frames =>
    { st with
      frames := .object (s :: keys) .colon schema (pendingOf schema s) :: frames
      unknownKey := st.unknownKey || isUnknown schema s
      duplicateKeys := st.duplicateKeys || keys.contains s }
  | _ => st

/-- A string, a literal or a number ended. -/
def ScanState.endValue (st : ScanState) : ScanState :=
  { st with
    frames := finishHead st.frames
    arrayOverMax := st.arrayOverMax || (st.frames.head?.map Frame.overMax).getD false }

def ScanState.openObject (st : ScanState) (root : SchemaNode) : ScanState :=
  let schema :=
    match valueSchema st.frames root with
    | some (.object properties required additional) => .object properties required additional
    | _ => .any
  { st with frames := .object [] .key schema .any :: st.frames }

def ScanState.openArray (st : ScanState) (root : SchemaNode) : ScanState :=
  let frame :=
    match valueSchema st.frames root with
    | some (.array items minItems maxItems) => Frame.array .value items 0 minItems maxItems
    | _ => Frame.array .value .any 0 0 none
  { st with frames := frame :: st.frames }

/-- A closing bracket or brace. -/
def ScanState.close (st : ScanState) : ScanState :=
  { st with
    frames := finishHead st.frames.tail
    requiredMissingOnClose := st.requiredMissingOnClose ||
      match st.frames with
      | .object keys phase (.object _ required _) _ :: _ => phase ≠ .value && required.any fun r => !keys.contains r
      | _ => false
    minItemsUnmetOnClose := st.minItemsUnmetOnClose ||
      match st.frames with
      | .array phase _ count minItems _ :: _ => phase ≠ .value && count < minItems
      | _ => false }

def ScanState.comma (st : ScanState) : ScanState :=
  match st.frames with
  | .object keys _ schema pending :: frames => { st with frames := .object keys .key schema pending :: frames }
  | .array _ items count minItems maxItems :: frames =>
    { st with frames := .array .value items count minItems maxItems :: frames }
  | [] => st

def ScanState.colon (st : ScanState) : ScanState :=
  match st.frames with
  | .object keys _ schema pending :: frames => { st with frames := .object keys .value schema pending :: frames }
  | _ => st

/-! ## Numbers -/

/-- The text may still resolve to the target: a beginning of its own spelling, or an equal number already. -/
def numberTextCouldMatch (lib : Serde) (raw : Bytes) (target : Value) : Bool :=
  raw.isPrefixOf (lib.print target) ||
    match lib.parse raw with
    | .ok parsed => parsed.isNumber && jsonEqual parsed target
    | .error _ => false

/-- What is expected where a number runs to the end of the buffer. -/
inductive NumCtx where
  | free
  | integer
  | targets (values : List Value)
  | dead

def numCtx : Option SchemaNode → NumCtx
  | none | some .any | some .number => .free
  | some .integer => .integer
  | some (.const v) => if v.isNumber then .targets [v] else .dead
  | some (.enum values) => .targets (values.filter Value.isNumber)
  | some _ => .dead

def isDigit (b : UInt8) : Bool := 48 ≤ b && b ≤ 57

/-- What ends a literal. -/
def isDelimiter (b : UInt8) : Bool :=
  b = 34 || b = 123 || b = 91 || b = 125 || b = 93 || b = 44 || b = 58 || isWs b

/-- The literal runs to the end of the buffer. -/
def ScanState.tail (lib : Serde) (ctx : NumCtx) (text : Bytes) (st : ScanState) : ScanState :=
  match text with
  | [] => st
  | b :: _ =>
    if b = 45 || isDigit b then
      let st := { st with literalTail := true, numberTail := true, numberText := text }
      match ctx with
      | .free => { st with numberTailFree := true }
      | .integer => { st with numberTailInteger := true, numberDeadEnd := text.contains 46 }
      | .targets targets => { st with numberDeadEnd := !targets.any (numberTextCouldMatch lib text) }
      | .dead => { st with numberDeadEnd := true }
    else { st with literalTail := true, numberTail := false }

/-- `true`, `false`, `null` or a number. -/
def ScanState.literal (lib : Serde) (root : SchemaNode) (st : ScanState) (text rest : Bytes) : ScanState :=
  let ctx := numCtx (valueSchema st.frames root)
  match rest with
  | [] => st.endValue.tail lib ctx text
  | _ :: _ => st.endValue

/-! ## The loop -/

def scanByte (lib : Serde) (root : SchemaNode) (st : ScanState) (b : UInt8) (bs : Bytes) : Step :=
  if b = quote then
    match scanString lib (bs.length + 1) [] bs with
    | .unclosed s =>
      if atKey st.frames then .stop { st with inString := true, keyPrefixDecoded := s }
      else .stop { st with inString := true, valuePrefixDecoded := s }
    | .pending => .stop { st with inString := true, escapePending := true }
    | .closed s rest => if atKey st.frames then .more (st.endKey s) rest else .more st.endValue rest
  else if b = openBrace then .more (st.openObject root) bs
  else if b = 91 then .more (st.openArray root) bs
  else if b = closeBrace || b = 93 then .more st.close bs
  else if b = 44 then .more st.comma bs
  else if b = 58 then .more st.colon bs
  else if isWs b then .more { st with literalTail := false } bs
  else
    let text := (b :: bs).takeWhile (!isDelimiter ·)
    let rest := (b :: bs).dropWhile (!isDelimiter ·)
    .more (st.literal lib root text rest) rest

/-- The loop; every turn takes at least one byte. -/
def scanLoop (lib : Serde) (root : SchemaNode) : Nat → ScanState → Bytes → ScanState
  | _, st, [] => st
  | 0, st, _ :: _ => st
  | fuel + 1, st, b :: bs =>
    match scanByte lib root st b bs with
    | .stop st => st
    | .more st rest => scanLoop lib root fuel st rest

/-! ## What may come next -/

def valueStart : Bytes := [34, 45, 123, 48, 49, 50, 51, 52, 53, 54, 55, 56, 57, 116, 102, 110, 91]

def ws : Bytes := [32, 10, 9, 13]

def numberStart : Bytes := [45, 48, 49, 50, 51, 52, 53, 54, 55, 56, 57]

def constStart : Value → Bytes
  | .string _ => [34]
  | .number _ => numberStart
  | .bool true => [116]
  | .bool false => [102]
  | .null => [110]
  | .object _ => [123]
  | .array _ => [91]

def constStarts (values : List Value) : Bytes :=
  (values.flatMap constStart).foldl (fun out b => if out.contains b then out else out ++ [b]) []

def schemaValueStarts : SchemaNode → Bytes
  | .any => valueStart
  | .string => [34]
  | .number | .integer => numberStart
  | .boolean => [116, 102]
  | .null => [110]
  | .object _ _ _ => [123]
  | .array _ _ _ => [91]
  | .const v => constStarts [v]
  | .enum values => constStarts values

def structuralKey : List Frame → Bytes
  | .object _ _ (.object _ required _) _ :: _ => 34 :: ws ++ if required.isEmpty then [125] else []
  | .object _ _ _ _ :: _ => 34 :: ws ++ [125]
  | _ => 34 :: ws

def structuralValue : List Frame → Bytes
  | .array _ _ _ minItems _ :: _ => valueStart ++ ws ++ if 0 < minItems then [] else [93]
  | _ => valueStart ++ ws

def structuralCont : List Frame → Bytes
  | .object keys _ (.object properties required additional) _ :: _ =>
    let v := 44 :: 125 :: ws
    let v := if required.all keys.contains then v else v.filter (· ≠ 125)
    if !additional && properties.all (fun p => keys.contains p.1) then v.filter (· ≠ 44) else v
  | .object _ _ _ _ :: _ => 44 :: 125 :: ws
  | .array _ _ count minItems maxItems :: _ =>
    let v := 44 :: 93 :: ws
    let v := if count < minItems then v.filter (· ≠ 93) else v
    if (maxItems.map (decide <| · ≤ count)).getD false then v.filter (· ≠ 44) else v
  | [] => 44 :: 93 :: ws

def structuralNext (frames : List Frame) : Bytes :=
  match (frames.head?.map Frame.phase).getD .value with
  | .key => structuralKey frames
  | .colon => 58 :: ws
  | .value => structuralValue frames
  | .cont => structuralCont frames

def valueNext (frames : List Frame) (root : SchemaNode) : Option Bytes :=
  (valueSchema frames root).map fun node =>
    let v := schemaValueStarts node
    match frames with
    | .array _ _ _ 0 _ :: _ => if v.contains 93 then v else v ++ [93]
    | _ => v

/-- The names a closed object has left, where a key stands. -/
def unusedKeys : List Frame → Option (List Text)
  | .object keys .key (.object properties _ false) _ :: _ =>
    some ((properties.map Prod.fst).filter fun k => !keys.contains k)
  | _ => none

/-- The strings a constant or an enumeration admits. -/
def memberStrings : Option SchemaNode → Option (List Text)
  | some (.const v) => v.asStr.map fun s => [s]
  | some (.enum values) =>
    match values.filterMap Value.asStr with
    | [] => none
    | members => some members
  | _ => none

/-- A closed object with every known key used. -/
def satedClosed : List Frame → Bool
  | .object keys _ (.object properties _ false) _ :: _ => properties.all fun p => keys.contains p.1
  | _ => false

structure RawScan where
  duplicateKeys : Bool
  inString : Bool
  escapePending : Bool
  literalTail : Bool
  structuralNext : Bytes
  valueNext : Option Bytes
  keyFilter : Option (List Text)
  keyPrefixDecoded : Text
  unknownKey : Bool
  requiredMissingOnClose : Bool
  minItemsUnmetOnClose : Bool
  arrayOverMax : Bool
  numberTail : Bool
  numberTailFree : Bool
  numberTailInteger : Bool
  numberDeadEnd : Bool
  numberText : Bytes
  valueFilter : Option (List Text)
  valuePrefixDecoded : Text
  valueStartFilter : Option (List Text)
  keyStartFilter : Option (List Text)
  valueAtRoot : Bool
  inStringSatedClosed : Bool

def ScanState.summary (root : SchemaNode) (st : ScanState) : RawScan where
  duplicateKeys := st.duplicateKeys
  inString := st.inString
  escapePending := st.escapePending
  literalTail := st.literalTail
  structuralNext := if st.inString then [] else Schema.structuralNext st.frames
  valueNext := if st.inString then none else Schema.valueNext st.frames root
  keyFilter := if st.inString then unusedKeys st.frames else none
  keyPrefixDecoded := st.keyPrefixDecoded
  unknownKey := st.unknownKey
  requiredMissingOnClose := st.requiredMissingOnClose
  minItemsUnmetOnClose := st.minItemsUnmetOnClose
  arrayOverMax := st.arrayOverMax
  numberTail := st.numberTail
  numberTailFree := st.numberTailFree
  numberTailInteger := st.numberTailInteger
  numberDeadEnd := st.numberDeadEnd
  numberText := st.numberText
  valueFilter := if st.inString then memberStrings (valueSchema st.frames root) else none
  valuePrefixDecoded := st.valuePrefixDecoded
  valueStartFilter := if st.inString then none else memberStrings (valueSchema st.frames root)
  keyStartFilter := if st.inString then none else (unusedKeys st.frames).filter (!·.isEmpty)
  valueAtRoot := st.frames.isEmpty
  inStringSatedClosed := st.inString && satedClosed st.frames

def scanRaw (lib : Serde) (bytes : Bytes) (root : SchemaNode) : RawScan :=
  (scanLoop lib root bytes.length {} bytes).summary root

end Hipfire.Schema

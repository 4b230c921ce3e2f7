import Hipfire.Base.Bytes
import Hipfire.Base.Json
/-!
# Values — parsed JSON values, compiled schemas, and when a value conforms

`validate` and `json_equal` of the schema matcher over the values the JSON library returns.  A number is one of the library's
three forms; a double is its bits, read as a significand and a power of two.
-/
namespace Hipfire.Schema

open Json (Bytes Doc IsText NumberBegun)

abbrev Text := List Char

/-! ## Doubles -/

/-- A double, by its bits. -/
structure Double where
  bits : UInt64
deriving DecidableEq

namespace Double

def exponent (d : Double) : Nat := d.bits.toNat / 2 ^ 52 % 2 ^ 11

def fraction (d : Double) : Nat := d.bits.toNat % 2 ^ 52

def isNegative (d : Double) : Bool := d.bits.toNat / 2 ^ 63 = 1

def isFinite (d : Double) : Bool := d.exponent ≠ 2047

def isNan (d : Double) : Bool := d.exponent = 2047 && d.fraction ≠ 0

def isInfinite (d : Double) : Bool := d.exponent = 2047 && d.fraction = 0

/-- The magnitude is `significand · 2 ^ scale`. -/
def significand (d : Double) : Nat := if d.exponent = 0 then d.fraction else d.fraction + 2 ^ 52

def scale (d : Double) : Int := (max d.exponent 1 : Nat) - 1075

/-- Finite, with `fract() == 0.0`. -/
def isIntegral (d : Double) : Bool := d.isFinite && (0 ≤ d.scale || d.significand % 2 ^ d.scale.natAbs = 0)

/-- The magnitude, cut to a whole number. -/
def magnitude (d : Double) : Nat :=
  if 0 ≤ d.scale then d.significand * 2 ^ d.scale.natAbs else d.significand / 2 ^ d.scale.natAbs

/-- `as i128`, of a double in its range. -/
def toInt (d : Double) : Int := if d.isNegative then -(d.magnitude : Int) else d.magnitude

/-- `==`: the two zeros are equal, a NaN equals nothing. -/
def eq (f g : Double) : Bool :=
  !f.isNan && !g.isNan && (f.bits = g.bits || f.bits.toNat % 2 ^ 63 = 0 && g.bits.toNat % 2 ^ 63 = 0)

/-- The bits of the double nearest to a whole number, ties to even. -/
def bitsOfNat (n : Nat) : Nat :=
  if n = 0 then 0
  else
    let top := n.log2
    if top ≤ 52 then (top + 1023) * 2 ^ 52 + (n * 2 ^ (52 - top) - 2 ^ 52)
    else
      let unit := 2 ^ (top - 52)
      let low := n % unit
      let up := if unit < 2 * low || unit = 2 * low && n / unit % 2 = 1 then 1 else 0
      -- a carry out of the significand lands in the exponent
      (top + 1023) * 2 ^ 52 + (n / unit + up - 2 ^ 52)

def ofInt (i : Int) : Double := ⟨UInt64.ofNat (bitsOfNat i.natAbs + if i < 0 then 2 ^ 63 else 0)⟩

end Double

/-! ## Values -/

/-- `serde_json::Number`. -/
inductive Number where
  | posInt (n : UInt64)
  | negInt (i : Int64)
  | float (d : Double)
deriving DecidableEq

namespace Number

def asI64 : Number → Option Int
  | .posInt n => if n.toNat < 2 ^ 63 then some n.toNat else none
  | .negInt i => some i.toInt
  | .float _ => none

def asU64 : Number → Option Nat
  | .posInt n => some n.toNat
  | _ => none

def asF64 : Number → Double
  | .posInt n => Double.ofInt n.toNat
  | .negInt i => Double.ofInt i.toInt
  | .float d => d

def isI64 (n : Number) : Bool := n.asI64.isSome

def isU64 (n : Number) : Bool := n.asU64.isSome

def isF64 : Number → Bool
  | .float _ => true
  | _ => false

/-- `I128_EXACT_LIMIT`, the double nearest to `8.5e37`. -/
def exactLimit : Double := ⟨0x47CFF933C78CDFAD⟩

/-- Whole numbers compare exactly, below the limit. -/
def exact (d : Double) : Option Int := if d.magnitude < exactLimit.magnitude then some d.toInt else none

def floatEq (f g : Double) : Bool :=
  if f.isIntegral && g.isIntegral then
    match exact f, exact g with
    | some a, some b => a = b
    | _, _ => f.bits = g.bits
  else f.eq g

def numEq (x y : Number) : Bool :=
  match x.asI64, y.asI64 with
  | some i, some j => i = j
  | _, _ =>
    match x.asU64, y.asU64 with
    | some u, some v => u = v
    | _, _ => floatEq x.asF64 y.asF64

end Number

/-- `serde_json::Value`; an object keeps its keys in the order they were first met. -/
inductive Value where
  | null
  | bool (b : Bool)
  | number (n : Number)
  | string (s : Text)
  | array (items : List Value)
  | object (members : List (Text × Value))

namespace Value

def isNumber : Value → Bool
  | .number _ => true
  | _ => false

def asStr : Value → Option Text
  | .string s => some s
  | _ => none

end Value

mutual

/-- Numbers by value, composites element by element. -/
def jsonEqual : Value → Value → Bool
  | .number x, .number y => Number.numEq x y
  | .array x, .array y => x.length = y.length && itemsEqual x y
  | .object x, .object y => x.length = y.length && membersEqual x y
  | .null, .null => true
  | .bool a, .bool b => a = b
  | .string a, .string b => a = b
  | _, _ => false

def itemsEqual : List Value → List Value → Bool
  | i :: is, j :: js => jsonEqual i j && itemsEqual is js
  | _, _ => true

def membersEqual : List (Text × Value) → List (Text × Value) → Bool
  | [], _ => true
  | (k, v) :: rest, y =>
    (match y.lookup k with
      | some w => jsonEqual v w
      | none => false) && membersEqual rest y

end

/-! ## The JSON library -/

/-- What an error of the library is about. -/
inductive Category where
  | io | syntactic | data | eof
deriving DecidableEq

/-- `serde_json`, with what `from_utf8_lossy` makes of bytes that are no UTF-8. -/
structure Serde where
  parse : Bytes → Except Category Value
  print : Value → Bytes
  /-- What a number's text reads as. -/
  number : Bytes → Number
  repair : Bytes → String

/-- A key met again keeps its place and takes the new value. -/
def insertMember (key : Text) (v : Value) : List (Text × Value) → List (Text × Value)
  | [] => [(key, v)]
  | (k, w) :: rest => if k = key then (k, v) :: rest else (k, w) :: insertMember key v rest

mutual

/-- The value of a tree, by what its numbers read as. -/
def valueOf (number : Bytes → Number) : Doc → Value
  | .null => .null
  | .bool b => .bool b
  | .num text => .number (number text)
  | .str s => .string s
  | .arr items => .array (itemsOf number items)
  | .obj members => .object (membersOf number [] members)

def itemsOf (number : Bytes → Number) : List Doc → List Value
  | [] => []
  | d :: rest => valueOf number d :: itemsOf number rest

def membersOf (number : Bytes → Number) (seen : List (Text × Value)) : List (Text × Doc) → List (Text × Value)
  | [] => seen
  | (key, d) :: rest => membersOf number (insertMember key (valueOf number d) seen) rest

end

def Serde.value (lib : Serde) (d : Doc) : Value := valueOf lib.number d

/-- Only JSON texts are parsed, to their values. -/
def Serde.Sound (lib : Serde) : Prop := ∀ s v, lib.parse s = .ok v → ∃ d, IsText s d ∧ v = lib.value d

/-- JSON is parsed correctly, and a text that breaks off is an end of input; inside a number, only such a text is. -/
structure Serde.Correct (lib : Serde) : Prop where
  sound : lib.Sound
  complete : ∀ s d, IsText s d → ∃ v, lib.parse s = .ok v
  eof : ∀ s r d, IsText (s ++ r) d → (∀ d', ¬ IsText s d') → lib.parse s = .error .eof
  begins : ∀ s, NumberBegun s → lib.parse s = .error .eof → ∃ r d, IsText (s ++ r) d

inductive SchemaNode where
  | any
  | string
  | number
  | integer
  | boolean
  | null
  | object (properties : List (Text × SchemaNode)) (required : List Text) (additionalProperties : Bool)
  | array (items : SchemaNode) (minItems : Nat) (maxItems : Option Nat)
  | enum (values : List Value)
  | const (c : Value)

/-- What an error names a value, or what it wanted in its place. -/
inductive TypeName where
  | null | boolean | number | integer | string | array | object

def typeName : Value → TypeName
  | .null => .null
  | .bool _ => .boolean
  | .number _ => .number
  | .string _ => .string
  | .array _ => .array
  | .object _ => .object

/-- The texts `validate` returns, with what they quote. -/
inductive Invalid where
  | expected (want got : TypeName)
  | notFinite
  | missingRequired (key : Text)
  | additional (key : Text)
  | fewItems (len min : Nat)
  | manyItems (len max : Nat)
  | notInEnum
  | notConst

/-- Every required key is there. -/
def checkRequired (members : List (Text × Value)) : List Text → Except Invalid Unit
  | [] => .ok ()
  | req :: rest => if (members.lookup req).isSome then checkRequired members rest else .error (.missingRequired req)

def checkLength (len min : Nat) (max : Option Nat) : Except Invalid Unit :=
  if len < min then .error (.fewItems len min)
  else
    match max with
    | some max => if max < len then .error (.manyItems len max) else .ok ()
    | none => .ok ()

mutual

def validate : Value → SchemaNode → Except Invalid Unit
  | _, .any => .ok ()
  | .string _, .string => .ok ()
  | v, .string => .error (.expected .string (typeName v))
  | .number n, .number => if n.asF64.isNan || n.asF64.isInfinite then .error .notFinite else .ok ()
  | v, .number => .error (.expected .number (typeName v))
  | .number n, .integer =>
    if n.isI64 || n.isU64 then .ok ()
    else if n.asF64.isIntegral then .ok ()
    else .error (.expected .integer .number)
  | v, .integer => .error (.expected .integer (typeName v))
  | .bool _, .boolean => .ok ()
  | v, .boolean => .error (.expected .boolean (typeName v))
  | .null, .null => .ok ()
  | v, .null => .error (.expected .null (typeName v))
  | .object members, .object properties required additionalProperties => do
    checkRequired members required
    validateMembers members properties additionalProperties
  | v, .object _ _ _ => .error (.expected .object (typeName v))
  | .array arr, .array items minItems maxItems => do
    checkLength arr.length minItems maxItems
    validateItems arr items
  | v, .array _ _ _ => .error (.expected .array (typeName v))
  | v, .enum values => if values.any (jsonEqual v) then .ok () else .error .notInEnum
  | v, .const c => if jsonEqual v c then .ok () else .error .notConst

def validateMembers : List (Text × Value) → List (Text × SchemaNode) → Bool → Except Invalid Unit
  | [], _, _ => .ok ()
  | (key, val) :: rest, properties, additionalProperties =>
    match properties.lookup key with
    | some schema => do
      validate val schema
      validateMembers rest properties additionalProperties
    | none =>
      if additionalProperties then validateMembers rest properties additionalProperties
      else .error (.additional key)

def validateItems : List Value → SchemaNode → Except Invalid Unit
  | [], _ => .ok ()
  | item :: rest, items => do
    validate item items
    validateItems rest items

end

end Hipfire.Schema

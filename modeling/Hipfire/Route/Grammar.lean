import Hipfire.Base.Search
/-!
# Grammar — the strict body of a tool call

A span's body is a JSON object with a non-empty name, or one Qwen XML call that is closed and holds nothing but its
parameters.  The JSON library is a parameter.
-/
namespace Hipfire.Route

/-- What the router asks of the JSON library. -/
structure SerdeJson (J : Type) where
  fromStr : List Char → Option J
  get : J → List Char → Option J
  asStr : J → Option (List Char)
  /-- An object of string values, in insertion order; the last value of a key counts. -/
  object : List (List Char × List Char) → J

structure ToolCall (J : Type) where
  id : Option (List Char)
  name : List Char
  arguments : J
  renderedBody : Option (List Char)

variable {J : Type}

/-- `char::is_whitespace`. -/
def isWhitespace (c : Char) : Bool :=
  let n := c.toNat
  decide (9 ≤ n ∧ n ≤ 13) || n == 0x20 || n == 0x85 || n == 0xA0 || n == 0x1680 || decide (0x2000 ≤ n ∧ n ≤ 0x200A) ||
    n == 0x2028 || n == 0x2029 || n == 0x202F || n == 0x205F || n == 0x3000

def trimStart (s : List Char) : List Char := s.dropWhile isWhitespace

def trim (s : List Char) : List Char := ((trimStart s).reverse.dropWhile isWhitespace).reverse

def isAsciiDigit (c : Char) : Bool := decide ('0' ≤ c ∧ c ≤ '9')

def isAsciiAlphanumeric (c : Char) : Bool := isAsciiDigit c || decide ('a' ≤ c ∧ c ≤ 'z') || decide ('A' ≤ c ∧ c ≤ 'Z')

/-- The names of functions and parameters: letters, digits, `_`, and after the first character also `.` and `-`; no
leading digit. -/
def isName (s : List Char) : Bool :=
  !s.isEmpty && (s.zipIdx.all fun x => x.1 == '_' || isAsciiAlphanumeric x.1 || (decide (0 < x.2) && (x.1 == '.' || x.1 == '-'))) &&
    !s.head?.any isAsciiDigit

def toolCallOpenChars : List Char := "<tool_call>".toList

def stripChatmlLeakage (body : List Char) : List Char :=
  removeAll "<|im_sep|>".toList (removeAll "<|endoftext|>".toList (removeAll "<|im_end|>".toList
    (removeAll "<|im_start|>".toList body)))

/-- At most one leading and one trailing newline. -/
def stripTemplateNewlines (value : List Char) : List Char :=
  let value := (stripStart ['\n'] value).getD value
  if value.getLast? = some '\n' then value.dropLast else value

/-- The parameters of a call: what is left after the last one, and the arguments so far. -/
def parameterLoop (strict : Bool) : Nat → List Char → List (List Char × List Char) →
    Option (List Char × List (List Char × List Char))
  | 0, rest, arguments => some (rest, arguments)
  | fuel + 1, rest, arguments =>
    match cutAt "<parameter=".toList rest with
    | none => some (rest, arguments)
    | some (before, rest) =>
      if strict && !before.all isWhitespace then none
      else do
        let (key, rest) ← cutAt ['>'] rest
        let key := trim key
        if !isName key then none
        else do
          let (value, rest) ← cutAt "</parameter>".toList rest
          parameterLoop strict fuel rest (arguments ++ [(key, stripTemplateNewlines value)])

/-- What follows the closer, without the copies of it. -/
def dropClosers : Nat → List Char → List Char
  | 0, tail => tail
  | fuel + 1, tail =>
    match stripStart "</function>".toList tail with
    | some rest => dropClosers fuel (trimStart rest)
    | none => tail

def extractQwenXmlToolCallInner (json : SerdeJson J) (body : List Char) (strict : Bool) : Option (List Char × J) := do
  let functionBody ← stripStart "<function=".toList (trimStart body)
  let (name, afterName) ← cutAt ['>'] functionBody
  let name := trim name
  if !isName name then none
  else
    let closed := cutAt "</function>".toList afterName
    if strict && closed.isNone then none
    else do
      let paramsBody := (closed.map Prod.fst).getD afterName
      let (rest, arguments) ← parameterLoop strict paramsBody.length paramsBody []
      if strict && !rest.all isWhitespace then none
      else
        let tail := (closed.map fun c => dropClosers c.2.length (trimStart c.2)).getD []
        if strict && !tail.all isWhitespace then none
        else some (name, json.object arguments)

def extractQwenXmlToolCallStrict (json : SerdeJson J) (body : List Char) : Option (List Char × J) :=
  extractQwenXmlToolCallInner json body true

def parseStrictToolCallBody (json : SerdeJson J) (bodyRaw : List Char) : Option (ToolCall J) :=
  let body := trim (stripChatmlLeakage bodyRaw)
  if body.isEmpty then none
  else if (cutAt toolCallOpenChars body).isSome then none
  else
    match json.fromStr body with
    | some val =>
      let name := ((json.get val "name".toList).bind json.asStr).getD []
      if name.isEmpty then none
      else some ⟨none, name, (json.get val "arguments".toList).getD (json.object []), none⟩
    | none => (extractQwenXmlToolCallStrict json body).map fun call => ⟨none, call.1, call.2, none⟩

end Hipfire.Route

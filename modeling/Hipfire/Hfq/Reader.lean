import Hipfire.Base.Bytes
import Hipfire.Base.Checks
import Hipfire.Base.Extents
import Hipfire.Base.Json
/-!
# Reader — opening a model container (`hipfire-runtime`, `hfq.rs`)

The metadata's length is not stored: a scan for the brace that closes its object finds where the tensor index starts.  The
index holds each payload's size; where it starts is the sum of the sizes before it.
-/
namespace Hipfire.Hfq

open Json (quote backslash openBrace closeBrace)

/-! ## What is read -/

structure HfqTensorInfo where
  name : String
  quantType : UInt8
  shape : List UInt32
  groupSize : UInt32
  dataOffset : Nat
  dataSize : Nat
deriving DecidableEq

structure HfqFile where
  formatVersion : Nat
  archId : UInt32
  metadataJson : String
  tensors : List HfqTensorInfo
  mq4v2Symmetric : Bool
  dataOffset : Nat
deriving DecidableEq

/-- The part of the container a bounds check is made for. -/
inductive Part where
  | header
  | indexCount
  | nameLength
  | name
  | typeAndDimensions
  | shape
  | groupAndSize
deriving DecidableEq

/-- What is wrong with metadata appended after the payloads. -/
inductive OverlayError where
  | footerTruncated
  | lengthOutside (len : Nat)
  | unsupportedSchema (schema : Nat)
  | noMagic
  | lengthUnderflows
  | startsInPayload (start payloadEnd : Nat)
  | checksumMismatch
  | notUtf8
  | invalidJson
  | notAnObject
deriving DecidableEq

inductive OpenError where
  | truncated (what : Part) (needed fileLen : Nat)
  | baseOverflow
  | notAContainer (base : Nat)
  | unsupportedVersion (version raw : Nat)
  | overlayNotStandalone
  | metadataOffsetOverflow
  | dataOffsetOverflow
  | invalidOffsets (metadataOffset dataOffset fileLen : Nat)
  | notBraceTerminated (metadataOffset : Nat)
  | indexOffsetOverflow
  | countOffsetOverflow
  | countMismatch (indexCount headerCount : Nat)
  | duplicateTensor (name : String)
  | payloadOverflow (name : String)
  | payloadPastEnd (name : String) (start stop fileLen : Nat)
  | metadataOverlay (reason : OverlayError)
  | symmetricMismatch (name : String) (group half z expected : Nat)
  | symmetricWithoutGroups
  | wrongArch (provenance : String) (archId : UInt32)
deriving DecidableEq

/-- A parsed JSON value. -/
inductive Value where
  | null
  | bool (b : Bool)
  | posInt (n : Nat)
  | otherNumber (text : String)
  | str (s : String)
  | arr (items : List Value)
  | obj (members : List (String × Value))

/-- The library functions the reader calls. -/
structure Library where
  /-- `from_utf8_lossy` on bytes that are no UTF-8. -/
  repair : List UInt8 → String
  /-- `serde_json::from_str`. -/
  parse : String → Option Value
  /-- `str::to_lowercase`. -/
  lower : String → String
  /-- The half-precision bits of `-8 * d`, from those of `d`. -/
  minusEight : Nat → Nat
  /-- `Sha256::digest`. -/
  sha256 : List UInt8 → List UInt8

/-! ## The metadata -/

/-- The place after the brace that closes the first object, zero when there is none.  The depth is an `i32`; it is at most the
number of bytes read, so the two agree on metadata of less than `2 ^ 31` bytes. -/
def jsonEnd : Int → Bool → Bool → Nat → List UInt8 → Nat
  | _, _, _, _, [] => 0
  | depth, inString, escape, i, b :: rest =>
    if escape then jsonEnd depth inString false (i + 1) rest
    else if b = backslash ∧ inString = true then jsonEnd depth inString true (i + 1) rest
    else if b = quote then jsonEnd depth (!inString) false (i + 1) rest
    else if inString then jsonEnd depth inString false (i + 1) rest
    else if b = openBrace then jsonEnd (depth + 1) inString false (i + 1) rest
    else if b = closeBrace then
      if depth - 1 = 0 then i + 1 else jsonEnd (depth - 1) inString false (i + 1) rest
    else jsonEnd depth inString false (i + 1) rest

def Value.get (key : String) : Value → Option Value
  | .obj members => (members.find? (fun m => m.1 == key)).map Prod.snd
  | _ => none

def Value.asStr : Value → Option String
  | .str s => some s
  | _ => none

def Value.asArray : Value → Option (List Value)
  | .arr items => some items
  | _ => none

/-- `1` or `true`. -/
def Value.isMarker : Value → Bool
  | .posInt 1 => true
  | .bool true => true
  | _ => false

def symmetricMarker (lib : Library) (metadata : String) : Bool :=
  ((lib.parse metadata).bind (Value.get "mq4v2.symmetric")).any Value.isMarker

def namesQwen35 (lib : Library) (s : String) : Bool :=
  ["qwen3_5", "qwen3.5", "qwen3_6", "qwen3.6"].any (fun pat => decide (pat.toList <:+: (lib.lower s).toList))

/-- Where the metadata names a model of the family, if it does. -/
def qwen3Provenance (lib : Library) (metadata : String) : Option String :=
  (lib.parse metadata).bind fun doc =>
    let config := doc.get "config"
    let named (field : String) (s : Option String) : Option String :=
      (s.filter (namesQwen35 lib)).map (field ++ "=" ++ ·)
    (named "architecture" ((doc.get "architecture").bind Value.asStr)).orElse fun _ =>
      (named "model_type" ((config.bind (Value.get "model_type")).bind Value.asStr)).orElse fun _ =>
        ((config.bind (Value.get "architectures")).bind Value.asArray).bind fun items =>
          items.findSome? (fun v => named "architectures" v.asStr)

/-! ## The header and the index -/

def usizeLimit : Nat := 2 ^ 64

def checkedAdd (a b : Nat) (e : OpenError) : Except OpenError Nat :=
  if a + b < usizeLimit then .ok (a + b) else .error e

def need (file : List UInt8) (stop : Nat) (what : Part) : Except OpenError Unit :=
  if file.length < stop then .error (.truncated what stop file.length) else .ok ()

def u16At (file : List UInt8) (pos : Nat) : Nat := leNat (slice file pos 2)

def u32At (file : List UInt8) (pos : Nat) : Nat := leNat (slice file pos 4)

def u64At (file : List UInt8) (pos : Nat) : Nat := leNat (slice file pos 8)

def hfqBaseFormatVersion : Nat := 1

def hfqMetadataOverlayFlag : Nat := 2 ^ 31

structure Header where
  hasMetadataOverlay : Bool
  formatVersion : Nat
  archId : UInt32
  nTensors : Nat
  metadataOffset : Nat
  dataOffset : Nat

def readHeader (file : List UInt8) (base : Nat) : Except OpenError Header := do
  need file (← checkedAdd base 32 .baseOverflow) .header
  if slice file base 4 ≠ [72, 70, 81, 77] then throw (.notAContainer base)
  let raw := u32At file (base + 4)
  let hasMetadataOverlay := decide (hfqMetadataOverlayFlag ≤ raw)
  let formatVersion := raw % hfqMetadataOverlayFlag
  if formatVersion ≠ hfqBaseFormatVersion then throw (.unsupportedVersion formatVersion raw)
  if hasMetadataOverlay = true ∧ base ≠ 0 then throw .overlayNotStandalone
  let metadataOffset ← checkedAdd base (u64At file (base + 16)) .metadataOffsetOverflow
  let dataOffset ← checkedAdd base (u64At file (base + 24)) .dataOffsetOverflow
  if dataOffset < metadataOffset ∨ file.length < dataOffset then
    throw (.invalidOffsets metadataOffset dataOffset file.length)
  return ⟨hasMetadataOverlay, formatVersion, UInt32.ofNat (u32At file (base + 8)), u32At file (base + 12),
    metadataOffset, dataOffset⟩

/-- `n` numbers of four bytes. -/
def readShape (file : List UInt8) : Nat → Nat → List UInt32
  | 0, _ => []
  | n + 1, pos => UInt32.ofNat (u32At file pos) :: readShape file n (pos + 4)

/-- One entry of the index at `pos`, its payload at `start`; with the place after the entry. -/
def readTensor (lib : Library) (file : List UInt8) (seen : List String) (pos start : Nat) :
    Except OpenError (HfqTensorInfo × Nat) := do
  need file (pos + 2) .nameLength
  let nameLen := u16At file pos
  let pos := pos + 2
  need file (pos + nameLen) .name
  let name := fromUtf8Lossy lib.repair (slice file pos nameLen)
  if name ∈ seen then throw (.duplicateTensor name)
  let pos := pos + nameLen
  need file (pos + 2) .typeAndDimensions
  let quantType := file.getD pos 0
  let nDims := (file.getD (pos + 1) 0).toNat
  let pos := pos + 2
  need file (pos + nDims * 4) .shape
  let shape := readShape file nDims pos
  let pos := pos + nDims * 4
  need file (pos + 12) .groupAndSize
  let groupSize := UInt32.ofNat (u32At file pos)
  let dataSize := u64At file (pos + 4)
  let stop ← checkedAdd start dataSize (.payloadOverflow name)
  if file.length < stop then throw (.payloadPastEnd name start stop file.length)
  return (⟨name, quantType, shape, groupSize, start, dataSize⟩, pos + 12)

/-- The entries in order, and where the last payload ends. -/
def readTensors (lib : Library) (file : List UInt8) : Nat → List String → Nat → Nat →
    Except OpenError (List HfqTensorInfo × Nat)
  | 0, _, _, start => .ok ([], start)
  | n + 1, seen, pos, start => do
    let (info, pos) ← readTensor lib file seen pos start
    let (infos, stop) ← readTensors lib file n (info.name :: seen) pos (start + info.dataSize)
    return (info :: infos, stop)

/-! ## Checks on what was read -/

/-- One half of a group's header: its zero is `-8 * d`. -/
def checkHalf (lib : Library) (file : List UInt8) (t : HfqTensorInfo) (group half : Nat) : Except OpenError Unit :=
  let offset := t.dataOffset + group * 136 + half * 4
  let z := u16At file (offset + 2)
  let expected := lib.minusEight (u16At file offset)
  if z ≠ expected then .error (.symmetricMismatch t.name group half z expected) else .ok ()

/-- The first, middle and last group of the first four tensors of the symmetric type. -/
def checkSymmetric (lib : Library) (file : List UInt8) (tensors : List HfqTensorInfo) : Except OpenError Unit := do
  let sampled := ((tensors.filter (fun t => t.quantType = 44)).take 4).filter (fun t => t.dataSize / 136 ≠ 0)
  firstError (fun t =>
    let groups := t.dataSize / 136
    firstError (fun group => firstError (checkHalf lib file t group) [0, 1]) [0, groups / 2, groups - 1]) sampled
  if sampled = [] then throw .symmetricWithoutGroups

/-- A model of the family carries one of its architecture ids. -/
def checkProvenance (lib : Library) (archId : UInt32) (metadata : String) : Except OpenError Unit :=
  if archId = 5 ∨ archId = 6 ∨ archId = 17 then .ok ()
  else match qwen3Provenance lib metadata with
  | some provenance => .error (.wrongArch provenance archId)
  | none => .ok ()

def hfqMetadataOverlaySchema : Nat := 1

def hfqMetadataOverlayMaxBytes : Nat := 64 * 1024 * 1024

/-- `HFQMDOV1`. -/
def hfqMetadataOverlayMagic : List UInt8 := [72, 70, 81, 77, 68, 79, 86, 49]

def hfqMetadataOverlayFooterLen : Nat := 8 + 4 + 32 + 8

/-- The footer at the end of the file: the length of the metadata before it, a schema, their digest and a magic. -/
def readHfqMetadataOverlay (lib : Library) (file : List UInt8) (payloadEnd : Nat) : Except OverlayError String := do
  if file.length < hfqMetadataOverlayFooterLen then throw .footerTruncated
  let footer := file.length - hfqMetadataOverlayFooterLen
  let len := u64At file footer
  if len = 0 ∨ hfqMetadataOverlayMaxBytes < len then throw (.lengthOutside len)
  let schema := u32At file (footer + 8)
  if schema ≠ hfqMetadataOverlaySchema then throw (.unsupportedSchema schema)
  if slice file (footer + 44) 8 ≠ hfqMetadataOverlayMagic then throw .noMagic
  if footer < len then throw .lengthUnderflows
  if footer - len < payloadEnd then throw (.startsInPayload (footer - len) payloadEnd)
  let bytes := slice file (footer - len) len
  if lib.sha256 bytes ≠ slice file (footer + 12) 32 then throw .checksumMismatch
  match String.fromUTF8? ⟨bytes.toArray⟩ with
  | none => throw .notUtf8
  | some metadata =>
    match lib.parse metadata with
    | none => throw .invalidJson
    | some (.obj _) => return metadata
    | some _ => throw .notAnObject

def overlaidMetadata (lib : Library) (file : List UInt8) (h : Header) (stop : Nat) (metadata : String) :
    Except OpenError String :=
  if h.hasMetadataOverlay then (readHfqMetadataOverlay lib file stop).mapError .metadataOverlay else .ok metadata

def openAtOffset (lib : Library) (file : List UInt8) (base : Nat) : Except OpenError HfqFile := do
  let h ← readHeader file base
  let metaBytes := slice file h.metadataOffset (h.dataOffset - h.metadataOffset)
  let stop := jsonEnd 0 false false 0 metaBytes
  if stop = 0 then throw (.notBraceTerminated h.metadataOffset)
  let metadata := fromUtf8Lossy lib.repair (metaBytes.take stop)
  let symmetric := symmetricMarker lib metadata
  let pos ← checkedAdd h.metadataOffset stop .indexOffsetOverflow
  need file (← checkedAdd pos 4 .countOffsetOverflow) .indexCount
  let count := u32At file pos
  if count ≠ h.nTensors then throw (.countMismatch count h.nTensors)
  let (tensors, payloadEnd) ← readTensors lib file count [] (pos + 4) h.dataOffset
  let metadata ← overlaidMetadata lib file h payloadEnd metadata
  if symmetric then checkSymmetric lib file tensors
  checkProvenance lib h.archId metadata
  return ⟨h.formatVersion, h.archId, metadata, tensors, symmetric, h.dataOffset⟩

/-- `HfqFile::open`. -/
def openFile (lib : Library) (file : List UInt8) : Except OpenError HfqFile := openAtOffset lib file 0

end Hipfire.Hfq

import Hipfire.Base.Holdback
import Hipfire.Base.Utf8
/-!
# Filter — the filter of the decoded stream

`hipfire-runtime/eos_filter.rs`.  Bytes arrive token by token; the filter drops `<think>` spans and lone closers, stops at a
stop marker, and holds back what may still become a marker or the rest of a code point.
-/
namespace Hipfire.Eos

abbrev Bytes := List UInt8

/-- `"<think>"`. -/
def thinkOpen : Bytes := [0x3C, 0x74, 0x68, 0x69, 0x6E, 0x6B, 0x3E]

/-- `"</think>"`. -/
def thinkClose : Bytes := [0x3C, 0x2F, 0x74, 0x68, 0x69, 0x6E, 0x6B, 0x3E]

inductive FilterAction where
  | emit (bytes : Bytes)
  | hold
  | stop
  | emitAndStop (bytes : Bytes)
deriving DecidableEq

structure EosFilterConfig where
  stripThink : Bool
  startedInThink : Bool
  stopAt : List Bytes
  holdbackPrefixes : List Bytes

/-- The markers are `"<|im_end|>"` and `"<|endoftext|>"`. -/
def qwen35EosFilterConfig : EosFilterConfig where
  stripThink := false
  startedInThink := false
  stopAt := [[0x3C, 0x7C, 0x69, 0x6D, 0x5F, 0x65, 0x6E, 0x64, 0x7C, 0x3E],
    [0x3C, 0x7C, 0x65, 0x6E, 0x64, 0x6F, 0x66, 0x74, 0x65, 0x78, 0x74, 0x7C, 0x3E]]
  holdbackPrefixes := []

structure EosFilterState where
  raw : Bytes
  cursor : Nat
  visible : Bytes
  visibleEmitted : Nat
  inThink : Bool
  stopped : Bool
  finished : Bool

structure EosFilter where
  config : EosFilterConfig
  state : EosFilterState

/-! ## Events -/

inductive EventKind where
  | stop | thinkOpen | thinkClose
deriving DecidableEq

structure Event where
  place : Nat
  kind : EventKind
  len : Nat

namespace Event

/-- The event that counts: the earlier one, then the longer one, then a stop. -/
def earlier : Option Event → Event → Option Event
  | none, cand => some cand
  | some best, cand =>
    if cand.place < best.place then some cand
    else if cand.place = best.place ∧ best.len < cand.len then some cand
    else if cand.place = best.place ∧ cand.kind = .stop ∧ best.kind ≠ .stop then some cand
    else some best

/-- Where a marker is found. -/
def find (kind : EventKind) (rest marker : Bytes) : Option Event :=
  (findAt marker rest).map fun place => ⟨place, kind, marker.length⟩

end Event

namespace EosFilterConfig

variable (config : EosFilterConfig)

def stops : List Bytes := config.stopAt.filter fun needle => !needle.isEmpty

/-- The events found in the rest, in the order they are looked for. -/
def events (rest : Bytes) : List Event :=
  config.stops.filterMap (Event.find .stop rest) ++
    if config.stripThink then
      (Event.find .thinkOpen rest thinkOpen).toList ++ (Event.find .thinkClose rest thinkClose).toList
    else []

def earliestEvent (rest : Bytes) : Option Event := (config.events rest).foldl Event.earlier none

def watch : List Bytes :=
  (config.holdbackPrefixes.filter fun p => !p.isEmpty) ++ config.stops ++
    if config.stripThink then [thinkOpen, thinkClose] else []

end EosFilterConfig

/-- The largest `k` above `best` such that the last `k` bytes begin `p`, else `best`. -/
def trimLoop (rest p : Bytes) (best : Nat) : Nat → Nat
  | 0 => best
  | k + 1 =>
    if k + 1 ≤ best then best
    else if rest.drop (rest.length - (k + 1)) = p.take (k + 1) then k + 1
    else trimLoop rest p best k

def maxTrim (watch : List Bytes) (rest : Bytes) : Nat :=
  watch.foldl (fun best p => trimLoop rest p best (min (p.length - 1) rest.length)) 0

/-- How many leading bytes are prose, when no event was found. -/
def EosFilterConfig.holdbackTrimLen (config : EosFilterConfig) (rest : Bytes) : Nat :=
  utf8SafeEnd (rest.take (rest.length - maxTrim config.watch rest))

/-- Where the longest end that begins `needle` begins. -/
def trailingPrefixStart (bytes needle : Bytes) : Nat :=
  bytes.length - findDown (fun k => bytes.drop (bytes.length - k) = needle.take k) (min (needle.length - 1) bytes.length)

/-! ## The transform -/

namespace EosFilterState

variable (s : EosFilterState)

def rest : Bytes := s.raw.drop s.cursor

def pushVisible (bytes : Bytes) : EosFilterState := { s with visible := s.visible ++ bytes }

def pending : Bytes := s.visible.drop s.visibleEmitted

def safeVisibleEnd : Nat :=
  if s.visible.length ≤ s.visibleEmitted then s.visibleEmitted else utf8SafeEnd s.pending + s.visibleEmitted

/-- The bytes of `visible` from the emitted ones up to `stop`. -/
def upTo (stop : Nat) : Bytes := (s.visible.take stop).drop s.visibleEmitted

/-- A stop marker was found: what is safe is emitted, the rest is dropped. -/
def commitStop : EosFilterState × FilterAction :=
  let s := { s with stopped := true, raw := [], cursor := 0 }
  let stop := s.safeVisibleEnd
  let action := if s.visibleEmitted < stop then FilterAction.emitAndStop (s.upTo stop) else .stop
  ({ s with visibleEmitted := s.visible.length }, action)

end EosFilterState

/-- The loop of `pump`; a turn that goes on passes a marker. -/
def pumpLoop (config : EosFilterConfig) (atEos : Bool) : Nat → EosFilterState → EosFilterState × Option FilterAction
  | 0, s => (s, none)
  | fuel + 1, s =>
    if s.raw.length ≤ s.cursor then (s, none)
    else if s.inThink then
      match findAt thinkClose s.rest with
      | some idx => pumpLoop config atEos fuel { s with cursor := s.cursor + idx + thinkClose.length, inThink := false }
      | none =>
        let keepFrom := if atEos then s.rest.length else trailingPrefixStart s.rest thinkClose
        ({ s with cursor := s.cursor + keepFrom }, none)
    else
      match config.earliestEvent s.rest with
      | none =>
        let take := if atEos then s.rest.length else config.holdbackTrimLen s.rest
        ({ s.pushVisible (s.rest.take take) with cursor := s.cursor + take }, none)
      | some ev =>
        let s' := { s.pushVisible (s.rest.take ev.place) with cursor := s.cursor + ev.place + ev.len }
        match ev.kind with
        | .stop =>
          let r := s'.commitStop
          (r.1, some r.2)
        | .thinkOpen => pumpLoop config atEos fuel { s' with inThink := true }
        | .thinkClose => pumpLoop config atEos fuel s'

def pump (config : EosFilterConfig) (atEos : Bool) (s : EosFilterState) : EosFilterState × Option FilterAction :=
  pumpLoop config atEos (s.raw.length + 1) s

/-! ## The filter -/

namespace EosFilter

def byLength (l : List Bytes) : List Bytes := l.insertionSort fun a b => b.length ≤ a.length

def new (config : EosFilterConfig) : EosFilter where
  config := { config with
    holdbackPrefixes := byLength config.holdbackPrefixes
    stopAt := byLength config.stopAt }
  state := ⟨[], 0, [], 0, config.stripThink && config.startedInThink, false, false⟩

variable (f : EosFilter)

def observe (rawBytes : Bytes) : EosFilter × FilterAction :=
  let s := f.state
  if s.stopped || s.finished then (f, .hold)
  else if rawBytes.isEmpty && s.raw.isEmpty && decide (s.visible.length ≤ s.visibleEmitted) then (f, .hold)
  else
    match pump f.config false { s with raw := s.raw ++ rawBytes } with
    | (s, some action) => ({ f with state := s }, action)
    | (s, none) =>
      let stop := s.safeVisibleEnd
      if s.visibleEmitted < stop then ({ f with state := { s with visibleEmitted := stop } }, .emit (s.upTo stop))
      else ({ f with state := s }, .hold)

/-- Nothing of an open think span is drained. -/
def drain (s : EosFilterState) : EosFilterState × Bytes :=
  if s.inThink then (s, [])
  else if s.visible.length ≤ s.visibleEmitted then (s, [])
  else ({ s with visibleEmitted := s.visible.length }, s.pending)

def finish : EosFilter × Bytes :=
  if f.state.stopped || f.state.finished then (f, [])
  else
    let r := drain (pump f.config true f.state).1
    ({ f with state := { r.1 with finished := true } }, r.2)

end EosFilter

/-! ## A stream -/

def FilterAction.bytes : FilterAction → Bytes
  | .emit bytes | .emitAndStop bytes => bytes
  | .hold | .stop => []

/-- The filter after the chunks, and what it emitted. -/
def observeAll : EosFilter → List Bytes → EosFilter × Bytes
  | f, [] => (f, [])
  | f, chunk :: chunks =>
    let r := f.observe chunk
    let t := observeAll r.1 chunks
    (t.1, r.2.bytes ++ t.2)

/-- What is emitted of a stream, with the end of it, and whether the filter stopped. -/
def run (config : EosFilterConfig) (chunks : List Bytes) : Bytes × Bool :=
  let r := observeAll (.new config) chunks
  let e := r.1.finish
  (r.2 ++ e.2, e.1.state.stopped)

end Hipfire.Eos

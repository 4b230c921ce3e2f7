import Hipfire.Base.Bytes
import Hipfire.Base.Run
/-!
# Writer — building and writing a model container (`hipfire-quantize`, `hfq.rs`)

Tensors are appended to a list; when the bytes held in memory reach a threshold they are moved to a spill file, in list
order.  The container is a header, the metadata text, the tensor index, padding, and the payloads in list order, each from
memory or from the spill file, which is read once from its start.
-/
namespace Hipfire.Hfq

open List

abbrev Bytes := List UInt8

def hfqMagic : Bytes := [72, 70, 81, 77]

def hfqVersion : Nat := 1

/-- A tensor of the list; `quantType` is the code of its type. -/
structure HfqTensor where
  name : String
  quantType : UInt8
  shape : List UInt32
  groupSize : UInt32
  data : Bytes
  /-- Not zero when the bytes are in the spill file. -/
  spilledLen : Nat
deriving DecidableEq

/-- What has been written to the spill file. -/
structure TensorSpill where
  file : Bytes
deriving DecidableEq

/-! ## Spilling -/

/-- Every tensor with bytes in memory goes to the spill file. -/
def spillTensors : List HfqTensor → TensorSpill → List HfqTensor × TensorSpill
  | [], spill => ([], spill)
  | t :: tensors, spill =>
    if t.spilledLen = 0 ∧ t.data ≠ [] then
      let r := spillTensors tensors ⟨spill.file ++ t.data⟩
      ({ t with spilledLen := t.data.length, data := [] } :: r.1, r.2)
    else
      let r := spillTensors tensors spill
      (t :: r.1, r.2)

def maybeSpill (threshold : Nat) (s : List HfqTensor × TensorSpill) : List HfqTensor × TensorSpill :=
  let inMem := ((s.1.filter (fun t => t.spilledLen = 0)).map (fun t => t.data.length)).sum
  if inMem < threshold then s else spillTensors s.1 s.2

/-- A tensor as it is made, its bytes in memory. -/
structure NewTensor where
  name : String
  quantType : UInt8
  shape : List UInt32
  groupSize : UInt32
  data : Bytes
deriving DecidableEq

def NewTensor.fresh (t : NewTensor) : HfqTensor := ⟨t.name, t.quantType, t.shape, t.groupSize, t.data, 0⟩

inductive BuildStep where
  | append (tensor : NewTensor)
  | maybeSpill (threshold : Nat)

def buildStep : BuildStep → List HfqTensor × TensorSpill → List HfqTensor × TensorSpill
  | .append tensor, s => (s.1 ++ [tensor.fresh], s.2)
  | .maybeSpill threshold, s => maybeSpill threshold s

/-- The list and the spill file after some steps. -/
def build (steps : List BuildStep) : List HfqTensor × TensorSpill := runAll buildStep steps ([], ⟨[]⟩)

/-- The tensors the steps append. -/
def appended (steps : List BuildStep) : List NewTensor :=
  steps.filterMap fun
    | .append tensor => some tensor
    | .maybeSpill _ => none

/-! ## Writing -/

def HfqTensor.dataLen (t : HfqTensor) : Nat := if 0 < t.spilledLen then t.spilledLen else t.data.length

def HfqTensor.indexEntry (t : HfqTensor) : Bytes :=
  leBytes 2 (textBytes t.name).length ++ textBytes t.name ++ [t.quantType] ++ [UInt8.ofNat t.shape.length] ++
    t.shape.flatMap (fun d => leBytes 4 d.toNat) ++ leBytes 4 t.groupSize.toNat ++ leBytes 8 t.dataLen

def indexBytes (tensors : List HfqTensor) : Bytes :=
  leBytes 4 tensors.length ++ tensors.flatMap HfqTensor.indexEntry

/-- Rounded up to a multiple of 4096. -/
def alignData (n : Nat) : Nat := (n + 4095) / 4096 * 4096

def headerBytes (arch : UInt32) (count metadataOffset dataOffset : Nat) : Bytes :=
  hfqMagic ++ leBytes 4 hfqVersion ++ leBytes 4 arch.toNat ++ leBytes 4 count ++ leBytes 8 metadataOffset ++
    leBytes 8 dataOffset

def copyBufLen : Nat := 4 * 1024 * 1024

/-- One tensor's bytes from the spill file, at most a buffer at a time; `none` when the file ends first. -/
def copySpilled : Nat → Nat → Bytes → Option (Bytes × Bytes)
  | 0, _, _ => none
  | fuel + 1, remaining, reader =>
    if remaining = 0 then some ([], reader)
    else
      let chunk := min remaining copyBufLen
      if reader.length < chunk then none
      else (copySpilled fuel (remaining - chunk) (reader.drop chunk)).map fun r => (reader.take chunk ++ r.1, r.2)

/-- The payloads, the spill file read in passing. -/
def writePayloads : List HfqTensor → Bytes → Option Bytes
  | [], _ => some []
  | t :: tensors, reader =>
    if 0 < t.spilledLen then
      (copySpilled (t.spilledLen + 1) t.spilledLen reader).bind fun r => (writePayloads tensors r.2).map (r.1 ++ ·)
    else (writePayloads tensors reader).map (t.data ++ ·)

/-- All that precedes the payloads. -/
def containerHead (arch : UInt32) (metadata : String) (tensors : List HfqTensor) : Bytes :=
  let index := indexBytes tensors
  let dataStartUnaligned := 32 + (textBytes metadata).length + index.length
  let dataOffset := alignData dataStartUnaligned
  headerBytes arch tensors.length 32 dataOffset ++ textBytes metadata ++ index ++
    replicate (dataOffset - dataStartUnaligned) 0

def writeHfq (arch : UInt32) (metadata : String) (tensors : List HfqTensor) (spill : Option TensorSpill) : Option Bytes :=
  match spill with
  | some spill => (writePayloads tensors spill.file).map (containerHead arch metadata tensors ++ ·)
  | none => some (containerHead arch metadata tensors ++ tensors.flatMap HfqTensor.data)

/-! ## Spill order is list order -/

/-- A tensor after its bytes went to the spill file. -/
def NewTensor.spilled (t : NewTensor) : HfqTensor :=
  if t.data = [] then t.fresh else { t.fresh with spilledLen := t.data.length, data := [] }

theorem NewTensor.spilled_kept (t : NewTensor) : ¬ (t.spilled.spilledLen = 0 ∧ t.spilled.data ≠ []) := by
  unfold NewTensor.spilled
  split
  · rename_i hdata
    exact fun h => h.2 hdata
  · exact fun h => h.2 rfl

theorem spillTensors_spilled : ∀ (done : List NewTensor) (rest : List HfqTensor) (spill : TensorSpill),
    spillTensors (done.map NewTensor.spilled ++ rest) spill =
      (done.map NewTensor.spilled ++ (spillTensors rest spill).1, (spillTensors rest spill).2)
  | [], _, _ => rfl
  | t :: done, rest, spill => by
    rw [map_cons, cons_append, spillTensors, if_neg t.spilled_kept, spillTensors_spilled done rest spill]
    rfl

theorem spillTensors_fresh : ∀ (fresh : List NewTensor) (spill : TensorSpill),
    spillTensors (fresh.map NewTensor.fresh) spill =
      (fresh.map NewTensor.spilled, ⟨spill.file ++ fresh.flatMap NewTensor.data⟩)
  | [], spill => by
    rw [flatMap_nil, append_nil]
    rfl
  | t :: fresh, spill => by
    rw [map_cons, spillTensors]
    by_cases hdata : t.data = []
    · rw [if_neg (fun h => h.2 hdata), spillTensors_fresh fresh spill, map_cons, flatMap_cons, hdata,
        nil_append, show t.spilled = t.fresh from if_pos hdata]
    · rw [if_pos ⟨rfl, hdata⟩, spillTensors_fresh fresh, map_cons, flatMap_cons,
        show t.spilled = { t.fresh with spilledLen := t.data.length, data := [] } from if_neg hdata, append_assoc]
      rfl

/-- The list is a spilled part followed by a part in memory, and the spill file holds the first part's bytes in order. -/
structure Spilling (done fresh : List NewTensor) (s : List HfqTensor × TensorSpill) : Prop where
  tensors : s.1 = done.map NewTensor.spilled ++ fresh.map NewTensor.fresh
  file : s.2.file = done.flatMap NewTensor.data

variable {s : List HfqTensor × TensorSpill} {done fresh : List NewTensor}

theorem Spilling.maybeSpill (h : Spilling done fresh s) (threshold : Nat) :
    Spilling done fresh (maybeSpill threshold s) ∨ Spilling (done ++ fresh) [] (maybeSpill threshold s) := by
  unfold Hfq.maybeSpill
  dsimp only
  split
  · exact .inl h
  · refine .inr ⟨?_, ?_⟩
    · rw [h.tensors, spillTensors_spilled, spillTensors_fresh, map_append, map_nil, append_nil]
    · rw [h.tensors, spillTensors_spilled, spillTensors_fresh, flatMap_append, h.file]

theorem Spilling.append (h : Spilling done fresh s)
    (t : NewTensor) : Spilling done (fresh ++ [t]) (buildStep (.append t) s) := by
  refine ⟨?_, h.file⟩
  change s.1 ++ [t.fresh] = _
  rw [h.tensors, map_append, append_assoc]
  rfl

/-- **Every schedule of spills leaves the appended tensors, a spilled part and a part in memory.** -/
theorem build_spilling (steps : List BuildStep) :
    ∃ done fresh, done ++ fresh = appended steps ∧ Spilling done fresh (build steps) := by
  have hrun : ∀ (steps : List BuildStep) (done fresh : List NewTensor) (s : List HfqTensor × TensorSpill),
      Spilling done fresh s → ∃ done' fresh', done' ++ fresh' = done ++ fresh ++ appended steps ∧
        Spilling done' fresh' (runAll buildStep steps s) := by
    intro steps
    induction steps with
    | nil => exact fun done fresh s h => ⟨done, fresh, (append_nil _).symm, h⟩
    | cons step steps ih =>
      intro done fresh s h
      cases step with
      | append t =>
        obtain ⟨done', fresh', heq, h'⟩ := ih done (fresh ++ [t]) _ (h.append t)
        refine ⟨done', fresh', heq.trans ?_, h'⟩
        simp only [appended, filterMap_cons, append_assoc, singleton_append]
      | maybeSpill threshold =>
        obtain h | h := h.maybeSpill threshold
        · exact ih done fresh _ h
        · obtain ⟨done', fresh', heq, h'⟩ := ih (done ++ fresh) [] _ h
          exact ⟨done', fresh', heq.trans (by rw [append_nil]; rfl), h'⟩
  exact hrun steps [] [] ([], ⟨[]⟩) ⟨rfl, rfl⟩

/-! ## The payloads -/

theorem copySpilled_append : ∀ (fuel : Nat) (data rest : Bytes), data.length < fuel →
    copySpilled fuel data.length (data ++ rest) = some (data, rest)
  | 0, _, _, h => by omega
  | fuel + 1, data, rest, h => by
    rw [copySpilled]
    split
    · rename_i hlen
      rw [length_eq_zero_iff.1 hlen]
      rfl
    · have hpos : 0 < min data.length copyBufLen := by
        unfold copyBufLen
        omega
      have hle : min data.length copyBufLen ≤ data.length := Nat.min_le_left _ _
      generalize min data.length copyBufLen = chunk at hpos hle ⊢
      rw [if_neg (by rw [length_append]; omega), drop_append_of_le_length hle,
        take_append_of_le_length hle, ← length_drop,
        copySpilled_append fuel (data.drop chunk) rest (by rw [length_drop]; omega), Option.map_some,
        take_append_drop]

theorem writePayloads_fresh : ∀ (fresh : List NewTensor) (reader : Bytes),
    writePayloads (fresh.map NewTensor.fresh) reader = some (fresh.flatMap NewTensor.data)
  | [], _ => rfl
  | t :: fresh, reader => by
    rw [map_cons, writePayloads, if_neg (by exact Nat.lt_irrefl 0), writePayloads_fresh fresh reader]
    rfl

/-- **The payloads are the appended bytes in list order, wherever they were kept.** -/
theorem writePayloads_eq : ∀ (done fresh : List NewTensor) (rest : Bytes),
    writePayloads (done.map NewTensor.spilled ++ fresh.map NewTensor.fresh) (done.flatMap NewTensor.data ++ rest) =
      some ((done ++ fresh).flatMap NewTensor.data)
  | [], fresh, rest => writePayloads_fresh fresh _
  | t :: done, fresh, rest => by
    rw [map_cons, cons_append, writePayloads, flatMap_cons, append_assoc]
    by_cases hdata : t.data = []
    · rw [show t.spilled = t.fresh from if_pos hdata, if_neg (by exact Nat.lt_irrefl 0), hdata, nil_append,
        writePayloads_eq done fresh rest]
      simp only [Option.map_some, cons_append, flatMap_cons, hdata, NewTensor.fresh]
    · rw [show t.spilled = { t.fresh with spilledLen := t.data.length, data := [] } from if_neg hdata,
        if_pos (by exact length_pos_iff.2 hdata)]
      rw [copySpilled_append _ _ _ (Nat.lt_succ_self _), Option.bind_some]
      rw [writePayloads_eq done fresh rest]
      rfl

/-- What the index says of a tensor does not depend on where its bytes are. -/
theorem NewTensor.indexEntry_spilled (t : NewTensor) : t.spilled.indexEntry = t.fresh.indexEntry := by
  unfold NewTensor.spilled
  split
  · rfl
  rename_i hdata
  have hlen : ({ t.fresh with spilledLen := t.data.length, data := [] } : HfqTensor).dataLen = t.fresh.dataLen := by
    unfold HfqTensor.dataLen
    rw [if_pos (by exact length_pos_iff.2 hdata), if_neg (by exact Nat.lt_irrefl 0)]
    rfl
  unfold HfqTensor.indexEntry
  rw [hlen]

theorem indexBytes_eq (done fresh : List NewTensor) :
    indexBytes (done.map NewTensor.spilled ++ fresh.map NewTensor.fresh) =
      indexBytes ((done ++ fresh).map NewTensor.fresh) := by
  unfold indexBytes
  rw [flatMap_append, map_append, flatMap_append]
  have hdone : (done.map NewTensor.spilled).flatMap HfqTensor.indexEntry =
      (done.map NewTensor.fresh).flatMap HfqTensor.indexEntry := by
    rw [flatMap_map, flatMap_map]
    exact congrArg (fun f => flatMap f done) (funext NewTensor.indexEntry_spilled)
  rw [hdone]
  simp only [length_append, length_map]

/-- **What is written depends on the tensors alone, not on the schedule of spills.** -/
theorem writeHfq_build (arch : UInt32) (metadata : String) (steps : List BuildStep) :
    writeHfq arch metadata (build steps).1 (some (build steps).2) =
      some (containerHead arch metadata ((appended steps).map NewTensor.fresh) ++
        (appended steps).flatMap NewTensor.data) := by
  obtain ⟨done, fresh, happended, hs⟩ := build_spilling steps
  have hpay := writePayloads_eq done fresh []
  rw [append_nil, ← hs.tensors, ← hs.file, happended] at hpay
  have hhead : containerHead arch metadata (build steps).1 =
      containerHead arch metadata ((appended steps).map NewTensor.fresh) := by
    have hlen : (build steps).1.length = ((appended steps).map NewTensor.fresh).length := by
      rw [hs.tensors, ← happended]
      simp only [length_append, length_map]
    unfold containerHead
    rw [hlen, show indexBytes (build steps).1 = indexBytes ((appended steps).map NewTensor.fresh) by
      rw [hs.tensors, indexBytes_eq, happended]]
  unfold writeHfq
  dsimp only
  rw [hpay, hhead]
  rfl

end Hipfire.Hfq

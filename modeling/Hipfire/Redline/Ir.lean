import Hipfire.Base.Machine
/-!
# Ir — the dispatch IR: identities, device regions, kernel launches

The value types of `redline-dispatch`'s `ir.rs` and `identity.rs`.  A type whose constructor refuses some inputs keeps
what the constructor checked as a field (a region is not empty and does not overflow, the fields of a kernarg layout lie
inside the segment and do not overlap), so the functions below it need not check again.  Identifier and size arithmetic is
on `Nat`; the widths that a check depends on are written out.
-/
namespace Hipfire.Redline

def u64Max : Nat := 18446744073709551615

/-- A node or resource of one recorder: its recorder's identity and its insertion index there. -/
structure NodeId where
  owner : Nat
  index : Nat
deriving DecidableEq, Repr

structure ResourceId where
  owner : Nat
  index : Nat
deriving DecidableEq, Repr

abbrev ScalarSlotId := Nat

/-- A SHA-256 digest, as its bytes. -/
abbrev Digest := List UInt8

inductive KernargAbiError where
  | emptyField
  | invalidAlignment (alignment : Nat)
  | invalidSegmentAlignment (alignment : Nat)
  | misalignedField (offset alignment : Nat)
  | fieldAddressOverflow (offset size : Nat)
  | fieldExceedsSegmentAlignment (index fieldAlignment segmentAlignment : Nat)
  | fieldOutOfBounds (index fieldEnd segmentSize : Nat)
  | overlappingFields (first second : Nat)
  | argumentCount (fields arguments : Nat)
  | argumentSize (index expected actual : Nat)
deriving DecidableEq, Repr

inductive RecordError where
  | emptyKernelKey
  | zeroLaunchDimension (x y z : UInt32)
  | emptyResourceLabel
  | emptyResource
  | emptyRegion
  | emptyScalarSlot (slot : ScalarSlotId)
  | regionAddressOverflow (offset len : Nat)
  | regionOutOfBounds (resource : ResourceId) (offset len size : Nat)
  | resourceArgumentOutOfBounds (resource : ResourceId) (offset size : Nat)
  | undeclaredResourceArgument (resource : ResourceId) (offset : Nat)
  | foreignResource (resource : ResourceId)
  | unknownResource (resource : ResourceId)
  | foreignNode (node : NodeId)
  | unknownNode (node : NodeId)
  | dependencyCycle (node prerequisite : NodeId)
  | tooManyResources
  | tooManyNodes
deriving DecidableEq, Repr

/-! ## Text -/

/-- The code points of Unicode's `White_Space`, which `str::trim` strips. -/
def isWhiteSpace (c : Char) : Bool :=
  let n := c.toNat
  (decide (9 ≤ n) && decide (n ≤ 13)) || n == 32 || n == 133 || n == 160 || n == 5760 ||
    (decide (8192 ≤ n) && decide (n ≤ 8202)) || n == 8232 || n == 8233 || n == 8239 || n == 8287 || n == 12288

/-- `text.trim().is_empty()`. -/
def isBlank (text : String) : Bool := text.toList.all isWhiteSpace

/-! ## Regions and accesses -/

/-- A byte range within one logical device allocation. -/
structure DeviceRegion where
  resource : ResourceId
  offset : Nat
  len : Nat
  nonempty : 0 < len
  fits : offset + len ≤ u64Max
deriving DecidableEq

/-- One past the last byte of the region. -/
def DeviceRegion.stop (r : DeviceRegion) : Nat := r.offset + r.len

def DeviceRegion.overlaps (a b : DeviceRegion) : Bool :=
  decide (a.resource = b.resource) && decide (a.offset < b.stop) && decide (b.offset < a.stop)

variable (a b : DeviceRegion)

theorem DeviceRegion.overlaps_iff :
    a.overlaps b = true ↔ a.resource = b.resource ∧ a.offset < b.stop ∧ b.offset < a.stop := by
  simp [DeviceRegion.overlaps, and_assoc]

theorem DeviceRegion.overlaps_comm : a.overlaps b = b.overlaps a := by
  rw [Bool.eq_iff_iff, DeviceRegion.overlaps_iff, DeviceRegion.overlaps_iff]
  exact ⟨fun h => ⟨h.1.symm, h.2.2, h.2.1⟩, fun h => ⟨h.1.symm, h.2.2, h.2.1⟩⟩

def DeviceRegion.intersection (a b : DeviceRegion) : Option DeviceRegion :=
  if h : a.overlaps b = true then
    some
      { resource := a.resource
        offset := max a.offset b.offset
        len := min a.stop b.stop - max a.offset b.offset
        nonempty := by
          have h1 := (DeviceRegion.overlaps_iff a b).1 h
          have h2 := a.nonempty
          have h3 := b.nonempty
          unfold DeviceRegion.stop at h1 ⊢
          omega
        fits := by
          have h1 := (DeviceRegion.overlaps_iff a b).1 h
          have h2 := a.fits
          have h3 := b.fits
          unfold DeviceRegion.stop at h1 ⊢
          omega }
  else none

theorem DeviceRegion.intersection_isSome : (a.intersection b).isSome = a.overlaps b := by
  unfold DeviceRegion.intersection
  split
  · rename_i h; rw [h]; rfl
  · rename_i h; simpa using h

inductive AccessMode where
  | read
  | write
deriving DecidableEq, Repr

/-- One declared memory effect of a dispatch. -/
structure Access where
  region : DeviceRegion
  mode : AccessMode
deriving DecidableEq

structure Dim3 where
  x : UInt32
  y : UInt32
  z : UInt32
deriving DecidableEq, Repr

/-! ## Kernel arguments and their layout -/

inductive KernelArg where
  | scalar (bytes : List UInt8)
  | scalarSlot (slot : ScalarSlotId) (size : Nat)
  | resource (resource : ResourceId) (byteOffset : Nat)
deriving DecidableEq, Repr

/-- `DEVICE_POINTER_BYTES`. -/
def devicePointerBytes : Nat := 8

structure KernargField where
  offset : Nat
  size : Nat
  alignment : Nat
  nonempty : 0 < size
  fits : offset + size ≤ u32Max
deriving DecidableEq

def KernargField.stop (f : KernargField) : Nat := f.offset + f.size

/-- Two fields share no byte. -/
def KernargField.apart (f g : KernargField) : Prop := f.stop ≤ g.offset ∨ g.stop ≤ f.offset

instance (f g : KernargField) : Decidable (f.apart g) := inferInstanceAs (Decidable (_ ∨ _))

/-- An explicit kernarg layout: its fields lie inside the segment and share no byte. -/
structure KernargAbi where
  segmentSize : Nat
  segmentAlignment : Nat
  fields : List KernargField
  hash : Digest
  inside : ∀ f ∈ fields, f.stop ≤ segmentSize
  disjoint : fields.Pairwise KernargField.apart
deriving DecidableEq

/-- The bytes an argument occupies, as `validate_arguments` counts them. -/
def KernelArg.byteSize : KernelArg → Nat
  | .scalar bytes => if bytes.length ≤ u32Max then bytes.length else u32Max
  | .scalarSlot _ size => size
  | .resource _ _ => devicePointerBytes

def checkSizes (index : Nat) : List (KernelArg × KernargField) → Except KernargAbiError Unit
  | [] => .ok ()
  | (a, f) :: ps =>
    if a.byteSize = f.size then checkSizes (index + 1) ps
    else .error (.argumentSize index f.size a.byteSize)

def KernargAbi.validateArguments (abi : KernargAbi) (arguments : List KernelArg) : Except KernargAbiError Unit :=
  if arguments.length = abi.fields.length then checkSizes 0 (arguments.zip abi.fields)
  else .error (.argumentCount abi.fields.length arguments.length)

structure KernelArtifactIdentity where
  codeObject : Digest
  symbolText : Digest
  generation : Nat
deriving DecidableEq, Repr

/-- Immutable metadata required to resolve and launch one kernel. -/
structure KernelLaunch where
  kernel : String
  grid : Dim3
  block : Dim3
  dynamicSharedBytes : Nat
  arguments : List KernelArg
  kernargAbi : Option KernargAbi
  artifactIdentity : Option KernelArtifactIdentity
  estimatedWork : Nat
  workPos : 0 < estimatedWork
deriving DecidableEq

end Hipfire.Redline

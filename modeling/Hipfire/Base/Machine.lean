import Mathlib
/-! # Machine — the fixed-width arithmetic the sources use, on unbounded numbers -/
namespace Hipfire

def u32Max : Nat := 4294967295

/-- `x as i32`: the low 32 bits, read as two's complement. -/
def asI32 (x : Int) : Int := Int.bmod x 4294967296

/-- `x.checked_add(1)` on a `u32`. -/
def checkedInc (x : Nat) : Option Nat := if x < u32Max then some (x + 1) else none

/-- `x.wrapping_add(1)` on a `u32`. -/
def wrappingInc (x : Nat) : Nat := (x + 1) % (u32Max + 1)

/-- `usize::MAX`. -/
def usizeMax : Nat := 18446744073709551615

/-- `x.checked_add(y)` on a `u64`. -/
def checkedAdd64 (x y : Nat) : Option Nat := if x + y < 2 ^ 64 then some (x + y) else none

/-- `x.saturating_add(y)` on a `usize`. -/
def saturatingAdd (x y : Nat) : Nat := min (x + y) usizeMax

/-- `x.saturating_mul(y)` on a `usize`. -/
def saturatingMul (x y : Nat) : Nat := min (x * y) usizeMax

theorem asI32_of_lt {n : Nat} (h : n < 2147483648) : asI32 n = n := by
  unfold asI32; rw [Int.bmod_eq_of_le] <;> omega

theorem checkedInc_eq_some {x y : Nat} : checkedInc x = some y ↔ x < u32Max ∧ y = x + 1 := by
  unfold checkedInc
  split
  · rename_i h
    rw [Option.some.injEq]
    exact ⟨fun e => ⟨h, e.symm⟩, fun e => e.2.symm⟩
  · rename_i h
    simp [h]

end Hipfire

import Mathlib.Data.List.Lex
import Mathlib.Algebra.Group.Nat.Basic

/-! Byte strings as the source handles them. A `Vec<u8>` or `&[u8]` is a list of `UInt8`,
and Rust orders slices lexicographically with a proper prefix first, which is `List.Lex` over
the order of the bytes' values. A `u64` is a `UInt64`, ordered by its value. -/

namespace Engula

/-- `Vec<u8>` and `&[u8]`. -/
abbrev Bytes := List UInt8

/-- Bytes compare by value, as `u8` does. -/
instance instLinearOrderUInt8 : LinearOrder UInt8 :=
  LinearOrder.lift' UInt8.toNat (fun _ _ h => UInt8.eq_of_val_eq (Fin.ext h))

theorem uint8_lt_iff (a b : UInt8) : a < b ↔ a.toNat < b.toNat := Iff.rfl

example : ([1, 2] : Bytes) < [1, 3] ∧ ([] : Bytes) < [0] ∧ ¬ ([5] : Bytes) < [5] := by decide

theorem uInt64_le_iff (a b : UInt64) : a ≤ b ↔ a.toNat ≤ b.toNat := Iff.rfl

/-- `u64` compares as its value does. -/
theorem compare_uInt64 (a b : UInt64) : compare a b = compare a.toNat b.toNat := by
  have hlt : a < b ↔ a.toNat < b.toNat := Iff.rfl
  have heq : a = b ↔ a.toNat = b.toNat := ⟨congrArg _, UInt64.toNat.inj⟩
  simp only [compare, compareOfLessAndEq, hlt, heq]

end Engula

import Mathlib.Algebra.Ring.Int.Defs
import Mathlib.Algebra.Ring.Nat
import Mathlib.Data.Int.Order.Basic
import Mathlib.Data.List.Basic

namespace SRaftMuduo

/-- A `std::string` by its bytes, one `Char` each. -/
abbrev CString := List Char

instance : LawfulBEq CString := inferInstanceAs (LawfulBEq (List Char))

/-- A sum of `uint64_t` values wraps at `2^64`. -/
@[irreducible] def u64 (x : Nat) : Nat := x % 2^64

/-- A difference of `uint64_t` values wraps too. -/
@[irreducible] def u64Sub (x y : Nat) : Nat := (x+2^64-y) % 2^64

/-- The conversion of an `int64_t` to `uint64_t`. -/
@[irreducible] def toU64 (x : Int) : Nat := (x % 2^64).toNat

/-- The conversion of a `size_t` to `int`. -/
@[irreducible] def toI32 (x : Nat) : Int :=
  if x % 2^32 < 2^31 then (x % 2^32 : Nat) else ((x % 2^32 : Nat) : Int) - 2^32

/-- The conversion of a `uint64_t` to `int64_t`. -/
@[irreducible] def toI64 (x : Nat) : Int :=
  if x % 2^64 < 2^63 then (x % 2^64 : Nat) else ((x % 2^64 : Nat) : Int) - 2^64

theorem u64_of_lt {x : Nat} (h : x < 2^64) : u64 x = x := by
  rw [u64,Nat.mod_eq_of_lt h]

theorem u64_le (x : Nat) : u64 x ≤ x := by
  rw [u64]
  exact Nat.mod_le _ _

theorem u64Sub_of_le {x y : Nat} (hx : x < 2^64) (h : y ≤ x) : u64Sub x y = x-y := by
  unfold u64Sub
  omega

/-- The increment of a wrapped `-1`. -/
theorem u64_wrap : u64 (2^64-1+1) = 0 := by decide +kernel

theorem toU64_of_nonneg {x : Int} (h0 : 0 ≤ x) (h : x < 2^64) : toU64 x = x.toNat := by
  rw [toU64, Int.emod_eq_of_lt h0 h]

theorem toU64_lt (x : Int) : toU64 x < 2^64 := by
  unfold toU64
  omega

theorem toU64_neg_one : toU64 (-1) = 2^64-1 := by decide +kernel

/-- On the values of an `int64_t` the conversion loses nothing. -/
theorem toU64_inj {x y : Int} (hx : -2^63 ≤ x) (hx' : x < 2^63) (hy : -2^63 ≤ y)
    (hy' : y < 2^63) (h : toU64 x = toU64 y) : x = y := by
  have hx0 := Int.emod_nonneg x (show (2^64 : Int) ≠ 0 by decide)
  have hy0 := Int.emod_nonneg y (show (2^64 : Int) ≠ 0 by decide)
  have he : x % 2^64 = y % 2^64 := by
    unfold toU64 at h
    omega
  omega

theorem toI64_toU64 {x : Int} (h : -2^63 ≤ x) (h' : x < 2^63) : toI64 (toU64 x) = x := by
  unfold toI64 toU64
  split_ifs <;> omega

theorem toI32_toU64 {x : Int} (h : -2^31 ≤ x) (h' : x < 2^31) : toI32 (toU64 x) = x := by
  unfold toI32 toU64
  split_ifs <;> omega

theorem toI32_le (x : Nat) : (toI32 x+1).toNat ≤ 2^31 := by
  unfold toI32
  split_ifs <;> omega

end SRaftMuduo

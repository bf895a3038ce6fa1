/-
PintosThreads/FixedPoint.lean

The 17.14 fixed-point arithmetic of `threads/fixed_point.h`.  A C `int` is an
integer here, and every operation wraps its result to 32 bits the way the
target machine does; a product or a scaled dividend is taken in 64 bits first.
C division truncates toward zero.
-/
import Mathlib.Algebra.Group.Int.Defs
import Mathlib.Algebra.Group.Nat.Defs
import Mathlib.Data.Int.Init

namespace Pintos

/-- `1 << 14`: the number of fractional units in one. -/
def fpOne : ℤ := 2 ^ 14

/-- The 32-bit two's complement value of `x`. -/
def toInt32 (x : ℤ) : ℤ := x.bmod (2 ^ 32)

/-- The 64-bit two's complement value of `x`. -/
def toInt64 (x : ℤ) : ℤ := x.bmod (2 ^ 64)

theorem toInt64_eq {x : ℤ} (hlo : -2 ^ 63 ≤ x) (hhi : x < 2 ^ 63) : toInt64 x = x :=
  Int.bmod_eq_of_le (by omega) (by omega)

def intToFp (n : ℤ) : ℤ := toInt32 (n * fpOne)

def fpToInt (x : ℤ) : ℤ := x.tdiv fpOne

def fpToIntNearest (x : ℤ) : ℤ :=
  if x ≥ 0 then (toInt32 (x + fpOne / 2)).tdiv fpOne
  else (toInt32 (x - fpOne / 2)).tdiv fpOne

def fpAdd (x y : ℤ) : ℤ := toInt32 (x + y)

def fpAddInt (x n : ℤ) : ℤ := toInt32 (x + toInt32 (n * fpOne))

def fpMul (x y : ℤ) : ℤ := toInt32 ((x * y).tdiv fpOne)

def fpMulInt (x n : ℤ) : ℤ := toInt32 (x * n)

/-- `none` is the processor's divide error. -/
def fpDiv (x y : ℤ) : Option ℤ :=
  if y = 0 then none else some (toInt32 ((x * fpOne).tdiv y))

def fpDivInt (x n : ℤ) : Option ℤ :=
  if n = 0 then none else some (x.tdiv n)

end Pintos

/-!
# 64-bit arithmetic

Integers of the language are signed 64-bit words: a result outside their range wraps around.
Division cuts the quotient off toward zero.

String keys are told apart by the 64-bit FNV-1a hash of their UTF-8 bytes.
-/

namespace MonkeyLang.Word

/-- The low 64 bits of `n`, read in two's complement: if the highest of them is set, `2^64` is taken
off. -/
def wrap (n : Int) : Int :=
  let low := n % 0x10000000000000000
  if 0x8000000000000000 ≤ low then low - 0x10000000000000000 else low

/-- The quotient of `a` by `b`, cut off toward zero: the quotient of the absolute values, and its
negative when just one of the two is negative. -/
def quotient (a b : Int) : Int :=
  let size : Int := (a.natAbs / b.natAbs : Nat)
  if decide (a < 0) ≠ decide (b < 0) then -size else size

/-- Wrapping takes the remainder that is nearest to zero. -/
theorem wrap_eq_bmod (n : Int) : wrap n = n.bmod UInt64.size := by
  rw [Int.bmod_def, wrap, UInt64.size]
  omega

/-- The quotient is the one that is rounded toward zero. -/
theorem quotient_eq_tdiv (a b : Int) : quotient a b = a.tdiv b := by
  -- one case for each pair of signs
  have hnat (n : Nat) : ¬ (n : Int) < 0 := Int.not_lt.2 (Int.natCast_nonneg n)
  cases a <;> cases b <;> simp [quotient, Int.tdiv, hnat]

/-- The 64-bit word that reads as `n` in two's complement. -/
def ofInt (n : Int) : UInt64 := UInt64.ofInt n

/-- The multiplier of the FNV hash. -/
def fnvPrime : UInt64 := 0x100000001b3

/-- The hash of no bytes. -/
def fnvOffset : UInt64 := 0xcbf29ce484222325

/-- One step of the FNV-1a hash: mix a byte in, then multiply. -/
def fnvStep (hash : UInt64) (byte : UInt8) : UInt64 := (hash ^^^ byte.toUInt64) * fnvPrime

/-- The FNV-1a hash of a sequence of bytes. -/
def fnv1a (bytes : List UInt8) : UInt64 := bytes.foldl fnvStep fnvOffset

end MonkeyLang.Word

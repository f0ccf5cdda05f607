import Mathlib.Data.Int.ModEq
import MonkeyLang.Proofs.Evaluation.Words

/-!
# Arithmetic is that of 64-bit words

A `Calculation` is an expression of integer literals, negations, sums, differences, products and
quotients. Its value is found in two other ways: `Calculation.words` computes with bit vectors, and
stops at the first quotient by zero; `Calculation.exact` computes with all integers.

The language computes as the bit vectors do (`Calculation.eval_eq`), and compares as they do in their
signed order. Without quotients this comes to the same as wrapping the exact value around once
(`Calculation.words_eq_exact`): words are the integers modulo `2^64`, and sums and products do not mind
where the modulus is taken.
-/

namespace MonkeyLang

/-! ### Wrapping and quotients -/

namespace Word

/-- The integer of a word in two's complement. -/
theorem wrap_eq_toInt (n : Int) : wrap n = (BitVec.ofInt 64 n).toInt := by
  rw [BitVec.toInt_ofInt, wrap_eq_bmod, UInt64.size]

/-- Wrapping gives the only integer in the range that is congruent. -/
theorem eq_wrap_iff {a n : Int} : n = wrap a ↔ InRange n ∧ n ≡ a [ZMOD 2 ^ 64] := by
  constructor
  · rintro rfl
    exact ⟨inRange_wrap a, by rw [wrap_eq_bmod]; exact Int.bmod_emod⟩
  · rintro ⟨hrange, hcongruent⟩
    have hwrap : wrap a % 2 ^ 64 = a % 2 ^ 64 := by rw [wrap_eq_bmod]; exact Int.bmod_emod
    have hwrapRange := inRange_wrap a
    unfold Int.ModEq at hcongruent
    unfold InRange at hrange hwrapRange
    omega

/-- The quotient leaves a remainder that is smaller than the divisor and has the sign of the
dividend, unless it is zero. -/
theorem exists_remainder (a : Int) {b : Int} (hb : b ≠ 0) :
    ∃ r, a = quotient a b * b + r ∧ |r| < |b| ∧ (r = 0 ∨ r.sign = a.sign) := by
  refine ⟨a.tmod b, ?_, ?_, ?_⟩
  · rw [quotient_eq_tdiv, Int.mul_comm, Int.mul_tdiv_add_tmod]
  · rw [Int.abs_eq_natAbs, Int.abs_eq_natAbs, Int.natAbs_tmod, Int.ofNat_lt]
    exact Nat.mod_lt _ (Int.natAbs_pos.2 hb)
  · by_cases hdvd : b ∣ a
    · exact .inl (Int.tmod_eq_zero_of_dvd hdvd)
    · exact .inr (by rw [Int.sign_tmod, if_neg hdvd])

end Word

/-! ### Calculations -/

/-- The operators that compute an integer from two. -/
inductive Operation where
  | sum
  | difference
  | product
  | quotient
deriving DecidableEq

/-- The operators that compare two integers. -/
inductive Comparison where
  | less
  | greater
  | lessEqual
  | greaterEqual
  | equal
  | notEqual

namespace Operation

/-- The spelling of an operator. -/
def symbol : Operation → String
  | sum => "+"
  | difference => "-"
  | product => "*"
  | quotient => "/"

/-- The operation on words. There is no quotient by zero; others are cut off toward zero. -/
def words : Operation → BitVec 64 → BitVec 64 → Option (BitVec 64)
  | sum, a, b => some (a + b)
  | difference, a, b => some (a - b)
  | product, a, b => some (a * b)
  | quotient, a, b => if b = 0 then none else some (a.sdiv b)

/-- The operation on all integers. -/
def exact : Operation → Int → Int → Int
  | sum, a, b => a + b
  | difference, a, b => a - b
  | product, a, b => a * b
  | quotient, a, b => a.tdiv b

end Operation

namespace Comparison

/-- The spelling of an operator. -/
def symbol : Comparison → String
  | less => "<"
  | greater => ">"
  | lessEqual => "<="
  | greaterEqual => ">="
  | equal => "=="
  | notEqual => "!="

/-- Whether the words compare so in their signed order. -/
def holds : Comparison → BitVec 64 → BitVec 64 → Bool
  | less, a, b => a.slt b
  | greater, a, b => b.slt a
  | lessEqual, a, b => a.sle b
  | greaterEqual, a, b => b.sle a
  | equal, a, b => a == b
  | notEqual, a, b => a != b

end Comparison

/-- An expression of integer literals below `2^63` and operators on integers. -/
inductive Calculation where
  | literal (token : Token) (value : Fin 0x8000000000000000)
  | negation (token : Token) (operand : Calculation)
  | operation (token : Token) (left : Calculation) (operation : Operation) (right : Calculation)

namespace Calculation

/-- A calculation as an expression of the language. -/
def expr : Calculation → Expr
  | literal token value => .integer token value.val
  | negation token operand => .unary token "-" operand.expr
  | operation token left op right => .binary token left.expr op.symbol right.expr

/-- The value of a calculation with words, from left to right, unless there is a quotient by zero. -/
def words : Calculation → Option (BitVec 64)
  | literal _ value => some (BitVec.ofNat 64 value)
  | negation _ operand => do return -(← operand.words)
  | operation _ left op right => do op.words (← left.words) (← right.words)

/-- The value of a calculation with all integers. -/
def exact : Calculation → Int
  | literal _ value => value.val
  | negation _ operand => -operand.exact
  | operation _ left op right => op.exact left.exact right.exact

/-- Whether there is a quotient in a calculation. -/
def divides : Calculation → Bool
  | literal .. => false
  | negation _ operand => operand.divides
  | operation _ left op right => left.divides || decide (op = .quotient) || right.divides

end Calculation

/-- The value that is made of what has been found. Nothing is found if there is a quotient by zero. -/
def found {α : Type} (value : α → Value) : Option α → Except Fault Value
  | some a => .ok (value a)
  | none => .error .divisionByZero

/-- The integer of a word. -/
def Value.ofWord (word : BitVec 64) : Value := .integer word.toInt

/-! ### Operators on words -/

section Operators

theorem unary_ofWord (a : BitVec 64) : (Value.ofWord a).unary "-" = .ok (.ofWord (-a)) := by
  have hneg : Word.wrap (-a.toInt) = (-a).toInt := by
    rw [Word.wrap_eq_bmod]
    exact BitVec.toInt_neg.symm
  simp [Value.unary, Value.ofWord, hneg]

/-- An operator between two integers. -/
theorem binary_ofWord_eq (operator : String) (a b : BitVec 64) :
    Value.binary operator (.ofWord a) (.ofWord b) =
      Value.integerBinary operator a.toInt b.toInt := by
  simp [Value.binary, Value.ofWord, Value.type]

theorem binary_ofWord (op : Operation) (a b : BitVec 64) :
    Value.binary op.symbol (.ofWord a) (.ofWord b) = found .ofWord (op.words a b) := by
  rw [binary_ofWord_eq]
  cases op with
  | sum =>
    have hsum : Word.wrap (a.toInt + b.toInt) = (a + b).toInt := by
      rw [Word.wrap_eq_bmod]
      exact (BitVec.toInt_add a b).symm
    simp [Value.integerBinary, Operation.symbol, Operation.words, found, Value.ofWord, hsum]
  | difference =>
    have hdifference : Word.wrap (a.toInt - b.toInt) = (a - b).toInt := by
      rw [Word.wrap_eq_bmod]
      exact BitVec.toInt_sub.symm
    simp [Value.integerBinary, Operation.symbol, Operation.words, found, Value.ofWord, hdifference]
  | product =>
    have hproduct : Word.wrap (a.toInt * b.toInt) = (a * b).toInt := by
      rw [Word.wrap_eq_bmod]
      exact (BitVec.toInt_mul a b).symm
    simp [Value.integerBinary, Operation.symbol, Operation.words, found, Value.ofWord, hproduct]
  | quotient =>
    have hquotient : Word.wrap (Word.quotient a.toInt b.toInt) = (a.sdiv b).toInt := by
      rw [Word.wrap_eq_bmod, Word.quotient_eq_tdiv]
      exact (BitVec.toInt_sdiv a b).symm
    by_cases hb : b = 0
    · simp [Value.integerBinary, Operation.symbol, Operation.words, found, hb]
    · have hne : b.toInt ≠ 0 := fun h => hb (BitVec.toInt_inj.1 h)
      rw [Operation.words, if_neg hb]
      simp [Value.integerBinary, Operation.symbol, found, Value.ofWord, hquotient, hne]

theorem binary_compares (op : Comparison) (a b : BitVec 64) :
    Value.binary op.symbol (.ofWord a) (.ofWord b) =
      found .boolean (some (op.holds a b)) := by
  rw [binary_ofWord_eq, found]
  cases op with
  | equal | notEqual =>
    by_cases hab : a = b
    · simp [Value.integerBinary, Comparison.symbol, Comparison.holds, hab]
    · have hne : a.toInt ≠ b.toInt := fun h => hab (BitVec.toInt_inj.1 h)
      simp [Value.integerBinary, Comparison.symbol, Comparison.holds, hab, hne]
  | _ => simp [Value.integerBinary, Comparison.symbol, Comparison.holds, BitVec.slt, BitVec.sle]

end Operators

/-! ### Evaluation -/

section Evaluation

variable {ctx : Context} {scope : ScopeId}

/-- What has been found is no error, and without it nothing more is evaluated. -/
theorem ofResult_found_bind {α : Type} {value : α → Value} (hvalue : ∀ a, (value a).isError = false)
    (o : Option α) (f : Value → Eval Value) :
    (do let v ← Eval.ofResult (found value o)
        if v.isError then return v else f v) =
      match o with
      | some a => f (value a)
      | none => Eval.ofResult (.error .divisionByZero) := by
  cases o with
  | none => rfl
  | some a =>
    rw [found, Eval.ofResult, pure_bind, if_neg (by simp [hvalue a])]

/-- An operator finds what it finds with the words of its operands. -/
theorem eval_binary {α : Type} {value : α → Value} {token : Token} {operator : String}
    {operation : BitVec 64 → BitVec 64 → Option α} {left right : Expr} {a b : Option (BitVec 64)}
    (hoperation : ∀ a b, Value.binary operator (.ofWord a) (.ofWord b) = found value (operation a b))
    (hleft : left.eval ctx scope = Eval.ofResult (found .ofWord a))
    (hright : right.eval ctx scope = Eval.ofResult (found .ofWord b)) :
    (Expr.binary token left operator right).eval ctx scope =
      Eval.ofResult (found value do operation (← a) (← b)) := by
  rw [Expr.eval, hleft, hright, ofResult_found_bind fun _ => rfl]
  cases a with
  | none => rfl
  | some a =>
    dsimp only
    rw [ofResult_found_bind fun _ => rfl]
    cases b with
    | none => rfl
    | some b => exact congrArg Eval.ofResult (hoperation a b)

/-- The language computes as bit vectors do. -/
theorem Calculation.eval_eq (c : Calculation) :
    c.expr.eval ctx scope = Eval.ofResult (found .ofWord c.words) := by
  induction c with
  | literal token value =>
    have hvalue : (BitVec.ofNat 64 value).toInt = value.val := by
      rw [← BitVec.ofInt_natCast, BitVec.toInt_ofInt, Int.bmod_eq_of_le] <;> omega
    show _ = Eval.ofResult (.ok (.integer (BitVec.ofNat 64 value).toInt))
    rw [hvalue, expr, Expr.eval]
    rfl
  | negation token operand ih =>
    rw [expr, Expr.eval, ih, ofResult_found_bind fun _ => rfl, words]
    cases operand.words with
    | none => rfl
    | some a =>
      dsimp only
      rw [unary_ofWord]
      rfl
  | operation token left op right ihl ihr =>
    rw [expr, eval_binary (binary_ofWord op) ihl ihr, words]

/-- The language compares as bit vectors do. -/
theorem Comparison.eval_eq (op : Comparison) (token : Token) (left right : Calculation) :
    (Expr.binary token left.expr op.symbol right.expr).eval ctx scope =
      Eval.ofResult (found .boolean do return op.holds (← left.words) (← right.words)) :=
  eval_binary (binary_compares op) left.eval_eq right.eval_eq

end Evaluation

/-! ### Exact values -/

/-- Operations other than quotients commute with wrapping. -/
theorem Operation.words_ofInt {op : Operation} (h : op ≠ .quotient) (a b : Int) :
    op.words (.ofInt 64 a) (.ofInt 64 b) = some (.ofInt 64 (op.exact a b)) := by
  cases op with
  | sum => exact congrArg some (BitVec.ofInt_add a b).symm
  | difference =>
    rw [Operation.words, Operation.exact, Int.sub_eq_add_neg, BitVec.ofInt_add, BitVec.ofInt_neg,
      BitVec.sub_eq_add_neg]
  | product => exact congrArg some (BitVec.ofInt_mul a b).symm
  | quotient => exact absurd rfl h

/-- Without quotients, the words are those of the exact values. -/
theorem Calculation.words_eq_exact {c : Calculation} (h : c.divides = false) :
    c.words = some (.ofInt 64 c.exact) := by
  induction c with
  | literal token value => exact congrArg some (BitVec.ofInt_natCast 64 value).symm
  | negation token operand ih =>
    rw [words, ih h]
    exact congrArg some BitVec.ofInt_neg.symm
  | operation token left op right ihl ihr =>
    simp only [divides, Bool.or_eq_false_iff, decide_eq_false_iff_not] at h
    rw [words, ihl h.1.1, ihr h.2]
    exact Operation.words_ofInt h.1.2 _ _

/-- The arithmetic of the language. Calculations come to what they come to with bit vectors, or to a
division by zero; comparisons are those of the signed order; and calculations without a quotient come
to the exact value, wrapped around once. It rests on two facts on integers of any size: wrapping gives
the only 64-bit integer that is congruent, and the quotient is cut off toward zero. -/
theorem arithmetic_of_words :
    (∀ ctx scope (c : Calculation),
      c.expr.eval ctx scope = Eval.ofResult (found .ofWord c.words)) ∧
    Fault.divisionByZero.message = "division by zero" ∧
    (∀ ctx scope token (op : Comparison) (left right : Calculation),
      (Expr.binary token left.expr op.symbol right.expr).eval ctx scope =
        Eval.ofResult (found .boolean do return op.holds (← left.words) (← right.words))) ∧
    (∀ ctx scope (c : Calculation), c.divides = false →
      c.expr.eval ctx scope = Eval.ofResult (.ok (.integer (Word.wrap c.exact)))) ∧
    (∀ a n : Int, n = Word.wrap a ↔ Word.InRange n ∧ n ≡ a [ZMOD 2 ^ 64]) ∧
    ∀ a b : Int, b ≠ 0 →
      ∃ r, a = Word.quotient a b * b + r ∧ |r| < |b| ∧ (r = 0 ∨ r.sign = a.sign) := by
  refine ⟨fun _ _ => Calculation.eval_eq, rfl, fun _ _ token op => op.eval_eq token, ?_,
    fun _ _ => Word.eq_wrap_iff, fun a _ => Word.exists_remainder a⟩
  intro ctx scope c h
  rw [c.eval_eq, Calculation.words_eq_exact h, Word.wrap_eq_toInt]
  rfl

/-- The negation of one more than the largest integer, which is the smallest one. -/
def negatedOverflow : Calculation :=
  .negation ⟨.minus, "-", 1⟩ (.operation ⟨.plus, "+", 1⟩
    (.literal ⟨.integer, "9223372036854775807", 1⟩ 0x7fffffffffffffff) .sum
    (.literal ⟨.integer, "1", 1⟩ 1))

/-- Its exact value is the smallest integer, though the sum alone is out of range; and a quotient of
negative integers leaves a negative remainder. -/
theorem arithmetic_of_words_of_negatedOverflow :
    negatedOverflow.divides = false ∧
    (∀ ctx scope, negatedOverflow.expr.eval ctx scope =
      Eval.ofResult (.ok (.integer (-0x8000000000000000)))) ∧
    (-2 : Int) ≠ 0 ∧
    ∃ r, (-7 : Int) = Word.quotient (-7) (-2) * -2 + r ∧ |r| < |(-2 : Int)| ∧
      (r = 0 ∨ r.sign = (-7 : Int).sign) := by
  have hdivides : negatedOverflow.divides = false := rfl
  have hvalue : Word.wrap negatedOverflow.exact = -0x8000000000000000 := by decide
  refine ⟨hdivides, fun ctx scope => ?_, by decide, arithmetic_of_words.2.2.2.2.2 (-7) (-2) (by decide)⟩
  rw [← hvalue]
  exact arithmetic_of_words.2.2.2.1 ctx scope negatedOverflow hdivides

end MonkeyLang

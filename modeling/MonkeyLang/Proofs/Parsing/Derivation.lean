import Mathlib.Data.Nat.Digits.Defs
import MonkeyLang.Parsing.Grammar

/-!
# The grammar of the language

The grammar as relations between lists of tokens and trees, one relation for each nonterminal and
one constructor for each production. A tree holds the tokens it is built from, so a derivation
accounts for every token and its line.

* `Grammar.Expression` is stratified: the operators of one `Stratum` associate to the left, and
  their operands come from the next, tighter stratum. `Stratum.unary` is the tightest.
* `Grammar.Postfix` is a `Grammar.Primary` with any number of calls and element accesses behind it.
* `Grammar.Statement`, `Grammar.Conditional` and `Grammar.Braced` are statements and blocks.
* `Derives` says which tokens make up a program.
-/

namespace MonkeyLang

namespace Grammar

/-- The number that a decimal numeral names. -/
def decimal (numeral : String) : Nat :=
  Nat.ofDigits 10 (numeral.toList.reverse.map fun digit => digit.toNat - '0'.toNat)

/-- The strata of expressions, the loosest first. -/
inductive Stratum where
  | equality
  | order
  | sum
  | product
  /-- operators before their operand, and what binds more tightly -/
  | unary
deriving DecidableEq

namespace Stratum

/-- The stratum of the operands. -/
def tighter : Stratum → Stratum
  | equality => order
  | order => sum
  | sum => product
  | product => unary
  | unary => unary

/-- The operators between two operands. -/
def operators : Stratum → List Kind
  | equality => [.equal, .notEqual]
  | order => [.less, .greater, .lessEqual, .greaterEqual]
  | sum => [.plus, .minus]
  | product => [.asterisk, .slash]
  | unary => []

end Stratum

/-! ### Names -/

/-- One or more names with commas between them. -/
inductive Names : List Token → List Ident → Prop
  | one {t : Token} : t.kind = .identifier → Names [t] [⟨t, t.literal⟩]
  | more {t comma : Token} {ts : List Token} {is : List Ident} : t.kind = .identifier →
      comma.kind = .comma → Names ts is → Names (t :: comma :: ts) (⟨t, t.literal⟩ :: is)

/-- The parameters of a function. -/
inductive Parameters : List Token → List Ident → Prop
  | none : Parameters [] []
  | some {ts : List Token} {is : List Ident} : Names ts is → Parameters ts is

/-! ### Expressions and statements -/

mutual

/-- The expressions of a stratum. -/
inductive Expression : Stratum → List Token → Expr → Prop
  | operand {s ts e} : s ≠ .unary → Expression s.tighter ts e → Expression s ts e
  | binary {s ts us l r} {op : Token} : op.kind ∈ s.operators → Expression s ts l →
      Expression s.tighter us r → Expression s (ts ++ op :: us) (.binary op l op.literal r)
  | unary {ts e} {op : Token} : op.kind = .bang ∨ op.kind = .minus → Expression .unary ts e →
      Expression .unary (op :: ts) (.unary op op.literal e)
  | suffixed {ts e} : Postfix ts e → Expression .unary ts e

/-- A primary expression with calls and element accesses behind it. -/
inductive Postfix : List Token → Expr → Prop
  | primary {ts e} : Primary ts e → Postfix ts e
  | call {ts us e es} {opening closing : Token} : Postfix ts e → opening.kind = .leftParen →
      Arguments us es → closing.kind = .rightParen →
      Postfix (ts ++ opening :: (us ++ [closing])) (.call opening e es)
  | index {ts us l r} {opening closing : Token} : Postfix ts l → opening.kind = .leftBracket →
      Expression .equality us r → closing.kind = .rightBracket →
      Postfix (ts ++ opening :: (us ++ [closing])) (.index opening l r)

/-- The expressions that need no operator. Parentheses leave no trace in the tree. -/
inductive Primary : List Token → Expr → Prop
  | identifier {t : Token} : t.kind = .identifier → Primary [t] (.identifier ⟨t, t.literal⟩)
  | text {t : Token} : t.kind = .text → Primary [t] (.text t t.literal)
  | boolean {t : Token} : t.kind = .boolean → Primary [t] (.boolean t (t.literal = "true"))
  | integer {t : Token} : t.kind = .integer → t.literal.length ≤ 4300 →
      decimal t.literal ≤ 9223372036854775807 → Primary [t] (.integer t (decimal t.literal))
  | group {ts e} {opening closing : Token} : opening.kind = .leftParen → Expression .equality ts e →
      closing.kind = .rightParen → Primary (opening :: (ts ++ [closing])) e
  | array {ts es} {opening closing : Token} : opening.kind = .leftBracket → Arguments ts es →
      closing.kind = .rightBracket → Primary (opening :: (ts ++ [closing])) (.array opening es)
  | hash {ts ps} {opening closing : Token} : opening.kind = .leftBrace → Entries ts ps →
      closing.kind = .rightBrace → Primary (opening :: (ts ++ [closing])) (.hash opening ps)
  | function {ts us b is} {keyword opening closing : Token} : keyword.kind = .function →
      opening.kind = .leftParen → Parameters ts is → closing.kind = .rightParen → Braced us b →
      Primary (keyword :: opening :: (ts ++ closing :: us)) (.function keyword is b)

/-- No expression, or some with commas between them. -/
inductive Arguments : List Token → List Expr → Prop
  | none : Arguments [] []
  | some {ts es} : Elements ts es → Arguments ts es

/-- One or more expressions with commas between them. -/
inductive Elements : List Token → List Expr → Prop
  | one {ts e} : Expression .equality ts e → Elements ts [e]
  | more {ts us e es} {comma : Token} : Expression .equality ts e → comma.kind = .comma →
      Elements us es → Elements (ts ++ comma :: us) (e :: es)

/-- The pairs of a hash literal: none, or some with commas between them. One more comma may stand
behind the last. -/
inductive Entries : List Token → List (Expr × Expr) → Prop
  | none : Entries [] []
  | last {ts us l r} {colon : Token} : Expression .equality ts l → colon.kind = .colon →
      Expression .equality us r → Entries (ts ++ colon :: us) [(l, r)]
  | more {ts us vs l r ps} {colon comma : Token} : Expression .equality ts l → colon.kind = .colon →
      Expression .equality us r → comma.kind = .comma → Entries vs ps →
      Entries (ts ++ colon :: (us ++ comma :: vs)) ((l, r) :: ps)

/-- A statement. -/
inductive Statement : List Token → Stmt → Prop
  | declaration {ts e} {keyword name assign semicolon : Token} :
      keyword.kind = .var ∨ keyword.kind = .const → name.kind = .identifier →
      assign.kind = .assign → Expression .equality ts e → semicolon.kind = .semicolon →
      Statement (keyword :: name :: assign :: (ts ++ [semicolon]))
        (.declaration keyword ⟨name, name.literal⟩ e)
  | bareReturn {keyword semicolon : Token} : keyword.kind = .ret → semicolon.kind = .semicolon →
      Statement [keyword, semicolon] (.ret keyword .missing)
  | valueReturn {ts e} {keyword semicolon : Token} : keyword.kind = .ret →
      Expression .equality ts e → semicolon.kind = .semicolon →
      Statement (keyword :: (ts ++ [semicolon])) (.ret keyword e)
  | expression {ts e} {t semicolon : Token} : Expression .equality (t :: ts) e →
      semicolon.kind = .semicolon → Statement (t :: (ts ++ [semicolon])) (.expression t e)
  | conditional {ts st} : Conditional ts st → Statement ts st

/-- A conditional. An alternative that is a conditional itself becomes a block around it. -/
inductive Conditional : List Token → Stmt → Prop
  | ifThen {ts us e b} {keyword opening closing : Token} : keyword.kind = .ifWord →
      opening.kind = .leftParen → Expression .equality ts e → closing.kind = .rightParen →
      Braced us b → Conditional (keyword :: opening :: (ts ++ closing :: us)) (.ifThen keyword e b)
  | ifElse {ts us vs e b b'} {keyword opening closing other : Token} : keyword.kind = .ifWord →
      opening.kind = .leftParen → Expression .equality ts e → closing.kind = .rightParen →
      Braced us b → other.kind = .elseWord → Braced vs b' →
      Conditional (keyword :: opening :: (ts ++ closing :: (us ++ other :: vs)))
        (.ifElse keyword e b b')
  | elseIf {ts us vs e b st} {keyword opening closing other nested : Token} :
      keyword.kind = .ifWord → opening.kind = .leftParen → Expression .equality ts e →
      closing.kind = .rightParen → Braced us b → other.kind = .elseWord → Conditional (nested :: vs) st →
      Conditional (keyword :: opening :: (ts ++ closing :: (us ++ other :: nested :: vs)))
        (.ifElse keyword e b ⟨nested, [st]⟩)

/-- A block: statements between braces. -/
inductive Braced : List Token → Block → Prop
  | braces {ts ss} {opening closing : Token} : opening.kind = .leftBrace → Statements ts ss →
      closing.kind = .rightBrace → Braced (opening :: (ts ++ [closing])) ⟨opening, ss⟩

/-- Any number of statements, one behind the other. -/
inductive Statements : List Token → List Stmt → Prop
  | nil : Statements [] []
  | cons {ts us st ss} : Statement ts st → Statements us ss → Statements (ts ++ us) (st :: ss)

end

/-! ### The first token -/

/-- The kinds of tokens that begin an expression. -/
def openers : List Kind :=
  [.identifier, .integer, .text, .boolean, .bang, .minus, .leftParen, .leftBracket, .leftBrace,
    .function]

/-- The tokens begin as an expression does. -/
def Opens (ts : List Token) : Prop := ∃ t us, ts = t :: us ∧ t.kind ∈ openers

theorem Opens.append {ts : List Token} (h : Opens ts) (us : List Token) : Opens (ts ++ us) := by
  obtain ⟨t, vs, rfl, ht⟩ := h
  exact ⟨t, vs ++ us, rfl, ht⟩

theorem opens_cons {t : Token} {k : Kind} (h : t.kind = k) (hk : k ∈ openers) (us : List Token) :
    Opens (t :: us) := ⟨t, us, rfl, h ▸ hk⟩

mutual

theorem Expression.opens {s ts e} : Expression s ts e → Opens ts
  | .operand _ h => h.opens
  | .binary _ h _ => h.opens.append _
  | .unary (.inl h) _ | .unary (.inr h) _ => opens_cons h (by decide) _
  | .suffixed h => h.opens

theorem Postfix.opens {ts e} : Postfix ts e → Opens ts
  | .primary h => h.opens
  | .call h _ _ _ | .index h _ _ _ => h.opens.append _

theorem Primary.opens {ts e} : Primary ts e → Opens ts
  | .identifier h | .text h | .boolean h | .integer h _ _ | .group h _ _ | .array h _ _
  | .hash h _ _ | .function h _ _ _ _ => opens_cons h (by decide) _

end

theorem Elements.opens {ts es} (h : Elements ts es) : Opens ts := by
  cases h with
  | one h => exact h.opens
  | more h => exact h.opens.append _

theorem Conditional.exists_cons {ts st} (h : Conditional ts st) :
    ∃ t us, ts = t :: us ∧ t.kind = .ifWord := by
  cases h with
  | ifThen h | ifElse h | elseIf h => exact ⟨_, _, rfl, h⟩

theorem Braced.exists_cons {ts b} (h : Braced ts b) : ∃ t us, ts = t :: us ∧ t.kind = .leftBrace := by
  cases h with
  | braces h => exact ⟨_, _, rfl, h⟩

/-- The kinds of tokens that begin a statement. -/
def starters : List Kind := [.var, .const, .ret, .ifWord] ++ openers

theorem Statement.exists_cons {ts st} (h : Statement ts st) :
    ∃ t us, ts = t :: us ∧ t.kind ∈ starters := by
  cases h with
  | declaration h =>
    refine ⟨_, _, rfl, ?_⟩
    rcases h with h | h <;> rw [h] <;> decide
  | bareReturn h | valueReturn h => exact ⟨_, _, rfl, by rw [h]; decide⟩
  | expression h =>
    obtain ⟨t, us, hts, ht⟩ := h.opens
    cases hts
    exact ⟨_, _, rfl, List.mem_append_right _ ht⟩
  | conditional h =>
    obtain ⟨t, us, rfl, ht⟩ := h.exists_cons
    exact ⟨t, us, rfl, by rw [ht]; decide⟩

theorem Statements.eq_nil_or_exists_cons {ts ss} (h : Statements ts ss) :
    ts = [] ∨ ∃ t us, ts = t :: us ∧ t.kind ∈ starters := by
  cases h with
  | nil => exact .inl rfl
  | cons h _ =>
    obtain ⟨t, us, rfl, ht⟩ := h.exists_cons
    exact .inr ⟨t, _, rfl, ht⟩

end Grammar

/-- The tokens derive the program. -/
def Derives (tokens : List Token) (program : Program) : Prop :=
  Grammar.Statements tokens program.statements

end MonkeyLang

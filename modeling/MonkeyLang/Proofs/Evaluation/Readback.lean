import MonkeyLang.Proofs.Evaluation.Arithmetic
import MonkeyLang.Proofs.Evaluation.Dictionary
import MonkeyLang.Proofs.Evaluation.Sources
import MonkeyLang.Proofs.Parsing.Literals
import MonkeyLang.Proofs.Parsing.Rendering

/-!
# Data is read back from its text

The text of data is a literal of the language. Negative numbers come back as the negation of a number,
which is where the smallest integer fails: what is negated is one more than the largest integer.

* `Value.IsDatum` are the values that are built from integers and booleans with arrays and hashes.
* `Value.literal` is the expression that is read from the text of a datum (`IsDatum.told`), with an
  error for each smallest integer in it.
* If there is none, evaluating this expression gives the datum again (`IsDatum.restored`), but for the
  identities of its arrays and hashes, which `Value.shape` leaves out.
-/

namespace MonkeyLang

open Parsing Grammar

/-! ### Data -/

/-- The smallest signed 64-bit integer. -/
def Word.smallest : Int := -0x8000000000000000

namespace Value

/-- A signed 64-bit integer, or a boolean. -/
inductive IsAtom : Value → Prop
  | integer {n : Int} : Word.InRange n → IsAtom (integer n)
  | boolean (b : Bool) : IsAtom (boolean b)

/-- The keys are atoms, and each entry is stored once, under the hash key of its key. -/
structure Keyed (entries : List (HashKey × Value × Value)) : Prop where
  atom : ∀ entry ∈ entries, entry.2.1.IsAtom
  hashKey : ∀ entry ∈ entries, entry.2.1.hashKey? = some entry.1
  nodup : (Dict.keys entries).Nodup

/-- Atoms, and the arrays and hashes of data. -/
inductive IsDatum : Value → Prop
  | atom {value : Value} : IsAtom value → IsDatum value
  | array {elements : List Value} (id : ObjectId) : (∀ v ∈ elements, IsDatum v) →
      IsDatum (array id elements)
  | hash {entries : List (HashKey × Value × Value)} (id : ObjectId) : Keyed entries →
      (∀ entry ∈ entries, IsDatum entry.2.2) → IsDatum (hash id entries)

mutual

/-- The value without the identities of arrays and hashes. -/
def shape : Value → Value
  | array _ elements => array 0 (shapeList elements)
  | hash _ entries => hash 0 (shapeEntries entries)
  | value => value

/-- The values without the identities of arrays and hashes. -/
def shapeList : List Value → List Value
  | [] => []
  | value :: values => value.shape :: shapeList values

/-- The entries of a hash without the identities of arrays and hashes. -/
def shapeEntries : List (HashKey × Value × Value) → List (HashKey × Value × Value)
  | [] => []
  | (hashKey, key, value) :: entries => (hashKey, key.shape, value.shape) :: shapeEntries entries

end

/-- An integer, as such. -/
def integer? : Value → Option Int
  | integer n => some n
  | _ => none

/-- The integers in a value, those among the keys of hashes included. -/
def integers (value : Value) : List Int := value.parts.filterMap integer?

section Shapes

variable {id : ObjectId} {elements : List Value} {entries : List (HashKey × Value × Value)}
  {n : Int} {b : Bool}

@[simp] theorem shapeEntries_eq (entries : List (HashKey × Value × Value)) :
    shapeEntries entries = Dict.mapValues (Prod.map shape shape) entries := by
  induction entries with
  | nil => rfl
  | cons entry entries ih => rw [shapeEntries, ih]; rfl

theorem isExit_shape (value : Value) : value.shape.isExit = value.isExit := by
  cases value <;> simp [shape, isExit]

/-- Nothing of the shape of a datum is an error or a return. -/
theorem IsDatum.isExit_of_shape {value w : Value} (h : value.IsDatum)
    (hshape : w.shape = value.shape) : w.isExit = false := by
  rw [← isExit_shape, hshape, isExit_shape]
  cases h with
  | atom h => cases h <;> rfl
  | array | hash => rfl

theorem isError_of_isExit {value : Value} (h : value.isExit = false) : value.isError = false := by
  cases value <;> first | rfl | cases h

theorem partsList_eq (elements : List Value) : partsList elements = elements.flatMap parts := by
  induction elements with
  | nil => rfl
  | cons v vs ih => rw [partsList, ih, List.flatMap_cons]

theorem partsEntries_eq (entries : List (HashKey × Value × Value)) :
    partsEntries entries = entries.flatMap fun entry => entry.2.1.parts ++ entry.2.2.parts := by
  induction entries with
  | nil => rfl
  | cons entry entries ih => rw [partsEntries, ih, List.flatMap_cons]

@[simp] theorem integers_integer : (integer n).integers = [n] := by simp [integers, parts, integer?]

@[simp] theorem integers_boolean : (boolean b).integers = [] := by simp [integers, parts, integer?]

@[simp] theorem integers_array : (array id elements).integers = elements.flatMap integers := by
  rw [integers, parts, List.filterMap_cons_none rfl, partsList_eq, List.filterMap_flatMap]
  rfl

@[simp] theorem integers_hash : (hash id entries).integers =
    entries.flatMap fun entry => entry.2.1.integers ++ entry.2.2.integers := by
  rw [integers, parts, List.filterMap_cons_none rfl, partsEntries_eq, List.filterMap_flatMap]
  simp [integers]

end Shapes

end Value

/-! ### Texts of data -/

/-- The digits of a number, on the first line. -/
def Token.ofNat (n : Nat) : Token := ⟨.integer, toString n, 1⟩

/-- What is reported of the text of integers: each smallest one, without its sign. -/
def unread (ns : List Int) : List SyntaxError :=
  List.replicate (ns.count Word.smallest) ⟨.integerOutOfRange "9223372036854775808", 1⟩

/-- The text is read as the tokens, on the first line, wherever no letter or digit follows. -/
def Writes (text : String) (ts : List Token) : Prop :=
  ∀ ⦃rest us⦄, Apart rest → Layout 1 rest us → Layout 1 (text.toList ++ rest) (ts ++ us)

namespace Value

mutual

/-- The expression that is read from the text of a datum. -/
def literal : Value → Expr
  | integer n =>
    if 0 ≤ n then numeral (.ofNat n.toNat)
    else .unary (symbol .minus) "-" (numeral (.ofNat (-n).toNat))
  | boolean b => .boolean ⟨.boolean, (boolean b).inspect, 1⟩ b
  | array _ elements => .array (symbol .leftBracket) (literalList elements)
  | hash _ entries => .hash (symbol .leftBrace) (literalPairs entries)
  | _ => .missing

/-- The expressions that are read from the texts of data. -/
def literalList : List Value → List Expr
  | [] => []
  | value :: values => value.literal :: literalList values

/-- The pairs of expressions that are read from the text of a hash. -/
def literalPairs : List (HashKey × Value × Value) → List (Expr × Expr)
  | [] => []
  | (_, key, value) :: entries => (key.literal, value.literal) :: literalPairs entries

end

/-- The text of the value is read as its literal. -/
def Told (value : Value) : Prop :=
  ∃ ts, Writes value.inspect ts ∧ Literal ts value.literal (unread value.integers)

end Value

section Digits

variable {n : Nat}

theorem toList_toString (n : Nat) : (toString n).toList = Nat.toDigits 10 n := by
  rw [Nat.toString_eq_repr, Nat.toList_repr]

/-- Numbers up to `2^63` are not too long. -/
theorem integerValue?_toString (h : n ≤ 0x8000000000000000) :
    integerValue? (toString n) = if n ≤ maxInteger then some (n : Int) else none := by
  have hvalue : digitsValue (toString n).toList = n := by
    rw [toList_toString]
    exact Nat.ofDigitChars_ten_toDigits
  have hlength : (toString n).toList.length ≤ 19 := by
    rw [toList_toString, Nat.length_toDigits_le_iff (by decide) (by decide)]
    omega
  unfold integerValue?
  dsimp only
  rw [if_pos (Nat.le_trans hlength (by decide)), hvalue]

theorem numeral_ofNat (h : n ≤ maxInteger) :
    numeral (.ofNat n) = .integer (.ofNat n) n ∧ numeralErrors (.ofNat n) = [] := by
  have hvalue : integerValue? (Token.ofNat n).literal = some (n : Int) := by
    rw [Token.ofNat, integerValue?_toString (Nat.le_trans h (by decide)), if_pos h]
  unfold numeral numeralErrors
  rw [hvalue]
  exact ⟨rfl, rfl⟩

theorem writes_number (n : Nat) : Writes (toString n) [.ofNat n] := by
  intro rest us hrest h
  have hrun : Longest isDigit (toString n).toList rest := by
    rw [toList_toString]
    exact ⟨Nat.toDigits_ne_nil, fun c hc => Nat.isDigit_of_mem_toDigits (by decide) (by decide) hc,
      fun c hc => (hrest c hc).2⟩
  have hspells := Spells.integer hrun
  rw [String.ofList_toList] at hspells
  exact layout_of_spells hspells (by decide) h

end Digits

theorem unread_append (ns ms : List Int) : unread (ns ++ ms) = unread ns ++ unread ms := by
  simp [unread]

theorem unread_of_not_mem {ns : List Int} (h : Word.smallest ∉ ns) : unread ns = [] := by
  simp [unread, List.count_eq_zero.2 h]

theorem Writes.negated {text : String} {ts : List Token} (h : Writes text ts) :
    Writes ("-" ++ text) (symbol .minus :: ts) := by
  intro rest us hrest hus
  rw [String.toList_append]
  exact layout_delimiter (c := '-') rfl (by decide) (h hrest hus)

namespace Value

section Telling

variable {value : Value} {values : List Value} {key : Value} {hashKey : HashKey}
  {entries : List (HashKey × Value × Value)}

theorem told_integer {n : Int} (h : Word.InRange n) : (integer n).Told := by
  obtain ⟨hlow, hhigh⟩ := h
  unfold Told
  rw [integers_integer, literal, inspect, Int.toString_eq_repr, Int.repr_eq_if]
  by_cases hsign : 0 ≤ n
  · have hread : Word.smallest ∉ [n] := by
      rw [List.mem_singleton, Word.smallest]
      omega
    have hvalue := numeral_ofNat (n := n.toNat) (by unfold maxInteger; omega)
    rw [if_pos hsign, if_pos hsign, unread_of_not_mem hread, ← hvalue.2]
    exact ⟨_, writes_number _, .number rfl⟩
  · rw [if_neg hsign, if_neg hsign]
    -- of all negated integers, the smallest one alone is beyond the largest
    have herrors : unread [n] = numeralErrors (.ofNat (-n).toNat) := by
      by_cases hsmallest : n = Word.smallest
      · rw [hsmallest]
        rfl
      · have hread : Word.smallest ∉ [n] := by simpa using Ne.symm hsmallest
        unfold Word.smallest at hsmallest
        rw [unread_of_not_mem hread, (numeral_ofNat (by unfold maxInteger; omega)).2]
    rw [herrors]
    exact ⟨_, (writes_number _).negated, .negative rfl rfl⟩

theorem told_boolean (b : Bool) : (boolean b).Told := by
  have hkeyword : Token.IsKeyword ⟨.boolean, (boolean b).inspect, 1⟩ .boolean :=
    ⟨rfl, by cases b <;> decide⟩
  refine ⟨[⟨.boolean, (boolean b).inspect, 1⟩], fun _ _ => hkeyword.layout, ?_⟩
  rw [literal, integers_boolean]
  have hexpression : Expression .equality [⟨.boolean, (boolean b).inspect, 1⟩]
      (.boolean ⟨.boolean, (boolean b).inspect, 1⟩ ((boolean b).inspect = "true")) :=
    (Postfix.primary (.boolean rfl)).toExpression _
  have hvalue : decide ((boolean b).inspect = "true") = b := by cases b <;> decide
  rw [hvalue] at hexpression
  exact .of_expression hexpression

theorem IsAtom.told (h : value.IsAtom) : value.Told := by
  cases h with
  | integer h => exact told_integer h
  | boolean b => exact told_boolean b

theorem told_elements (h : ∀ v ∈ value :: values, v.Told) :
    ∃ ts, Writes (", ".intercalate (inspectList (value :: values))) ts ∧
      Literals ts (literalList (value :: values)) (unread ((value :: values).flatMap integers)) := by
  induction values generalizing value with
  | nil =>
    obtain ⟨ts, hts, hliteral⟩ := h value List.mem_cons_self
    refine ⟨ts, by simpa [inspectList] using hts, ?_⟩
    simpa [literalList] using Literals.one hliteral
  | cons value' values ih =>
    obtain ⟨hvalue, hvalues⟩ := List.forall_mem_cons.1 h
    obtain ⟨ts, hts, hliteral⟩ := hvalue
    obtain ⟨us, hus, hliterals⟩ := ih hvalues
    refine ⟨ts ++ symbol .comma :: us, fun rest vs hrest hvs => ?_, ?_⟩
    · have hcomma := layout_delimiter (c := ',') rfl (by decide) (layout_space (hus hrest hvs))
      simpa [inspectList] using hts (apart_cons (by decide) _) hcomma
    · rw [List.flatMap_cons, unread_append, literalList]
      exact .more hliteral rfl hliterals

theorem told_array (id : ObjectId) (h : ∀ v ∈ values, v.Told) : (array id values).Told := by
  have helements : ∃ ts, Writes (", ".intercalate (inspectList values)) ts ∧
      Literal (symbol .leftBracket :: (ts ++ [symbol .rightBracket]))
        (.array (symbol .leftBracket) (literalList values)) (unread (values.flatMap integers)) := by
    cases values with
    | nil =>
      have harray : Primary [symbol .leftBracket, symbol .rightBracket]
          (.array (symbol .leftBracket) []) := .array rfl .none rfl
      refine ⟨[], fun _ _ _ hus => ?_, .of_expression ((Postfix.primary harray).toExpression _)⟩
      simpa [inspectList] using hus
    | cons value values =>
      obtain ⟨ts, hts, hliterals⟩ := told_elements h
      exact ⟨ts, hts, .array rfl hliterals rfl⟩
  obtain ⟨ts, hts, hliteral⟩ := helements
  refine ⟨_, fun rest us _ hus => ?_, by rwa [literal, integers_array]⟩
  simpa [inspect] using layout_enclosed (c := '[') (d := ']') rfl rfl (by decide) (hts · ·) hus

theorem told_entries {entry : HashKey × Value × Value}
    (hkeys : ∀ e ∈ entry :: entries, e.2.1.Told) (hvalues : ∀ e ∈ entry :: entries, e.2.2.Told) :
    ∃ ts, Writes (", ".intercalate (inspectEntries (entry :: entries))) ts ∧
      LiteralPairs ts (literalPairs (entry :: entries))
        (unread ((entry :: entries).flatMap fun e => e.2.1.integers ++ e.2.2.integers)) := by
  induction entries generalizing entry with
  | nil =>
    obtain ⟨ts, hts, hkey⟩ := hkeys entry List.mem_cons_self
    obtain ⟨us, hus, hvalue⟩ := hvalues entry List.mem_cons_self
    obtain ⟨hashKey, key, value⟩ := entry
    refine ⟨ts ++ symbol .colon :: us, fun rest vs hrest hvs => ?_, ?_⟩
    · have hcolon := layout_delimiter (c := ':') rfl (by decide) (layout_space (hus hrest hvs))
      simpa [inspectEntries] using hts (apart_cons (by decide) _) hcolon
    · rw [List.flatMap_singleton, unread_append]
      exact .last hkey rfl hvalue
  | cons entry' entries ih =>
    obtain ⟨⟨ts, hts, hkey⟩, hkeys⟩ := List.forall_mem_cons.1 hkeys
    obtain ⟨⟨us, hus, hvalue⟩, hvalues⟩ := List.forall_mem_cons.1 hvalues
    obtain ⟨vs, hvs, hpairs⟩ := ih hkeys hvalues
    obtain ⟨hashKey, key, value⟩ := entry
    refine ⟨ts ++ symbol .colon :: (us ++ symbol .comma :: vs), fun rest ws hrest hws => ?_, ?_⟩
    · have hcomma := layout_delimiter (c := ',') rfl (by decide) (layout_space (hvs hrest hws))
      have hpair := layout_space (hus (apart_cons (by decide) _) hcomma)
      have hcolon := layout_delimiter (c := ':') rfl (by decide) hpair
      simpa [inspectEntries] using hts (apart_cons (by decide) _) hcolon
    · rw [List.flatMap_cons, unread_append, unread_append, List.append_assoc]
      exact .more hkey rfl hvalue rfl hpairs

theorem told_hash (id : ObjectId) (hkeys : ∀ e ∈ entries, e.2.1.Told)
    (hvalues : ∀ e ∈ entries, e.2.2.Told) : (hash id entries).Told := by
  have hentries : ∃ ts, Writes (", ".intercalate (inspectEntries entries)) ts ∧
      Literal (symbol .leftBrace :: (ts ++ [symbol .rightBrace]))
        (.hash (symbol .leftBrace) (literalPairs entries))
        (unread (entries.flatMap fun e => e.2.1.integers ++ e.2.2.integers)) := by
    cases entries with
    | nil =>
      have hhash : Primary [symbol .leftBrace, symbol .rightBrace] (.hash (symbol .leftBrace) []) :=
        .hash rfl .none rfl
      refine ⟨[], fun _ _ _ hus => ?_, .of_expression ((Postfix.primary hhash).toExpression _)⟩
      simpa [inspectEntries] using hus
    | cons entry entries =>
      obtain ⟨ts, hts, hpairs⟩ := told_entries hkeys hvalues
      exact ⟨ts, hts, .hash rfl hpairs rfl⟩
  obtain ⟨ts, hts, hliteral⟩ := hentries
  refine ⟨_, fun rest us _ hus => ?_, by rwa [literal, integers_hash]⟩
  simpa [inspect] using layout_enclosed (c := '\x7b') (d := '\x7d') rfl rfl (by decide) (hts · ·) hus

/-- The text of a datum is read as its literal. -/
theorem IsDatum.told (h : value.IsDatum) : value.Told := by
  induction h with
  | atom h => exact h.told
  | array id _ ih => exact told_array id ih
  | hash id hkeyed _ ih => exact told_hash id (fun e he => (hkeyed.atom e he).told) ih

end Telling

end Value

/-! ### Values of literals -/

namespace Value

section Evaluating

variable {ctx : Context} {scope : ScopeId} {value key : Value} {m : Machine}

theorem eval_integer {n : Int} (h : Word.InRange n) (hread : n ≠ Word.smallest) :
    ((integer n).literal.eval ctx scope).run m = .ok (integer n) m := by
  have hrange := h
  unfold Word.InRange at hrange
  unfold Word.smallest at hread
  rw [literal]
  by_cases hsign : 0 ≤ n
  · rw [if_pos hsign, (numeral_ofNat (by unfold maxInteger; omega)).1, Expr.eval,
      Int.toNat_of_nonneg hsign]
    rfl
  · have hwrap : n = Word.wrap (-(-n)) := by
      rw [Int.neg_neg]
      exact Word.eq_wrap_iff.2 ⟨h, rfl⟩
    rw [if_neg hsign, (numeral_ofNat (by unfold maxInteger; omega)).1, Expr.eval, Expr.eval,
      Int.toNat_of_nonneg (by omega)]
    show EStateM.Result.ok (integer (Word.wrap (-(-n)))) m = _
    rw [← hwrap]

/-- An atom is evaluated to itself. -/
theorem IsAtom.eval (h : key.IsAtom) (hread : Word.smallest ∉ key.integers) :
    (key.literal.eval ctx scope).run m = .ok key m := by
  cases h with
  | integer h => exact eval_integer h (by simpa [eq_comm] using hread)
  | boolean b =>
    rw [literal, Expr.eval]
    rfl

/-- The literal is evaluated to a value of the same shape, and nothing is printed. -/
def Restored (ctx : Context) (scope : ScopeId) (value : Value) : Prop :=
  ∀ m : Machine, ∃ w m', (value.literal.eval ctx scope).run m = .ok w m' ∧ w.shape = value.shape ∧
    m'.output = m.output

theorem valued_literals {values : List Value} (h : ∀ v ∈ values, v.Restored ctx scope)
    (hdata : ∀ v ∈ values, v.IsDatum) (m : Machine) :
    ∃ ws m', Expr.Valued ctx scope (literalList values) m ws m' ∧
      shapeList ws = shapeList values ∧ m'.output = m.output := by
  induction values generalizing m with
  | nil => exact ⟨[], m, .nil, rfl, rfl⟩
  | cons value values ih =>
    obtain ⟨hvalue, hvalues⟩ := List.forall_mem_cons.1 h
    obtain ⟨hdatum, hdata⟩ := List.forall_mem_cons.1 hdata
    obtain ⟨w, m₁, hrun, hshape, hout⟩ := hvalue m
    obtain ⟨ws, m₂, hvalued, hshapes, hout'⟩ := ih hvalues hdata m₁
    have hok : w.isError = false := isError_of_isExit (hdatum.isExit_of_shape hshape)
    refine ⟨w :: ws, m₂, .cons hrun hok hvalued, ?_, hout'.trans hout⟩
    rw [shapeList, shapeList, hshape, hshapes]

theorem paired_literals {entries : List (HashKey × Value × Value)}
    (hkeys : ∀ e ∈ entries, e.2.1.IsAtom ∧ Word.smallest ∉ e.2.1.integers)
    (hkeyed : ∀ e ∈ entries, e.2.1.hashKey? = some e.1)
    (h : ∀ e ∈ entries, e.2.2.Restored ctx scope) (hdata : ∀ e ∈ entries, e.2.2.IsDatum)
    (m : Machine) :
    ∃ read m', Expr.Paired ctx scope (literalPairs entries) m (read.map Prod.snd) m' ∧
      shapeEntries read = shapeEntries entries ∧ (∀ e ∈ read, e.2.1.hashKey? = some e.1) ∧
      m'.output = m.output := by
  induction entries generalizing m with
  | nil => exact ⟨[], m, .nil, rfl, nofun, rfl⟩
  | cons entry entries ih =>
    obtain ⟨hashKey, key, value⟩ := entry
    obtain ⟨⟨hatom, hread⟩, hkeys⟩ := List.forall_mem_cons.1 hkeys
    obtain ⟨hhash, hkeyed⟩ := List.forall_mem_cons.1 hkeyed
    obtain ⟨hvalue, hvalues⟩ := List.forall_mem_cons.1 h
    obtain ⟨hdatum, hdata⟩ := List.forall_mem_cons.1 hdata
    obtain ⟨w, m₁, hrun, hshape, hout⟩ := hvalue m
    obtain ⟨read, m₂, hpaired, hshapes, hhashes, hout'⟩ := ih hkeys hkeyed hvalues hdata m₁
    have hok : w.isError = false := isError_of_isExit (hdatum.isExit_of_shape hshape)
    refine ⟨(hashKey, key, w) :: read, m₂, .cons (hatom.eval hread) hhash hrun hok hpaired, ?_,
      List.forall_mem_cons.2 ⟨hhash, hhashes⟩, hout'.trans hout⟩
    rw [shapeEntries, shapeEntries, hshape, hshapes]

/-- Entries that have their own hash keys are stored one behind the other. -/
theorem storeAll_of_nodup {stored entries : List (HashKey × Value × Value)}
    (hkeyed : ∀ e ∈ entries, e.2.1.hashKey? = some e.1)
    (h : (Dict.keys (stored ++ entries)).Nodup) :
    storeAll stored (entries.map Prod.snd) = stored ++ entries := by
  induction entries generalizing stored with
  | nil => rw [List.append_nil]; rfl
  | cons entry entries ih =>
    obtain ⟨hashKey, key, value⟩ := entry
    obtain ⟨hhash, hkeyed⟩ := List.forall_mem_cons.1 hkeyed
    have hnew : Dict.find? stored hashKey = none := by
      cases hfind : Dict.find? stored hashKey with
      | none => rfl
      | some entry =>
        have hmem : hashKey ∈ Dict.keys stored := List.mem_map.2 ⟨_, Dict.mem_of_find? hfind, rfl⟩
        rw [Dict.keys, List.map_append] at h
        exact absurd rfl ((List.nodup_append.1 h).2.2 _ hmem _ List.mem_cons_self)
    have happend : stored ++ (hashKey, key, value) :: entries =
        stored ++ [(hashKey, key, value)] ++ entries := by simp
    rw [List.map_cons, storeAll, hhash]
    dsimp only
    rw [Dict.insert_of_find?_eq_none hnew, ih hkeyed (happend ▸ h), happend]

/-- Without the smallest integer, a datum is got back. -/
theorem IsDatum.restored (h : value.IsDatum) (hread : Word.smallest ∉ value.integers) :
    value.Restored ctx scope := by
  induction h with
  | atom h => exact fun m => ⟨_, m, h.eval hread, rfl, rfl⟩
  | @array values id hdata ih =>
    intro m
    rw [integers_array, List.mem_flatMap] at hread
    have hvalues : ∀ v ∈ values, v.Restored ctx scope := fun v hv =>
      ih v hv fun hmem => hread ⟨v, hv, hmem⟩
    obtain ⟨ws, m', hvalued, hshapes, hout⟩ := valued_literals hvalues hdata m
    refine ⟨.array m'.supply ws, { m' with supply := m'.supply + 1 }, ?_, ?_, hout⟩
    · rw [literal, Expr.eval, run_bind_of_ok hvalued.run]
      rfl
    · rw [shape, shape, hshapes]
  | @hash entries id hkeyed hdata ih =>
    intro m
    rw [integers_hash, List.mem_flatMap] at hread
    have hkeys : ∀ e ∈ entries, e.2.1.IsAtom ∧ Word.smallest ∉ e.2.1.integers := fun e he =>
      ⟨hkeyed.atom e he, fun hmem => hread ⟨e, he, List.mem_append_left _ hmem⟩⟩
    have hvalues : ∀ e ∈ entries, e.2.2.Restored ctx scope := fun e he =>
      ih e he fun hmem => hread ⟨e, he, List.mem_append_right _ hmem⟩
    obtain ⟨read, m', hpaired, hshapes, hhashes, hout⟩ :=
      paired_literals hkeys hkeyed.hashKey hvalues hdata m
    -- the hash keys are the same ones, so no entry takes the place of another
    have hsame : Dict.keys read = Dict.keys entries := by
      have hmapped := congrArg Dict.keys hshapes
      simpa using hmapped
    have hstored : storeAll [] (read.map Prod.snd) = read :=
      storeAll_of_nodup hhashes (hsame ▸ hkeyed.nodup)
    refine ⟨.hash m'.supply read, { m' with supply := m'.supply + 1 }, ?_, ?_, hout⟩
    · rw [literal, Expr.eval, run_bind_of_ok (hpaired.run []), hstored]
      rfl
    · rw [shape, shape, hshapes]

end Evaluating

end Value

/-! ### Runs -/

/-- The text of a datum, with a semicolon behind it, is parsed as its literal. -/
theorem Value.IsDatum.exists_parse {value : Value} (h : value.IsDatum) : ∃ t,
    parse (value.inspect ++ ";") =
      .ok ⟨⟨[.expression t value.literal]⟩, unread value.integers⟩ := by
  obtain ⟨ts, hts, hliteral⟩ := h.told
  obtain ⟨t, us, rfl, -⟩ := hliteral.opens
  have hsemicolon := layout_delimiter (c := ';') rfl (by decide) layout_end
  have htokens : tokenize (value.inspect ++ ";") =
      t :: (us ++ [symbol .semicolon, ⟨.endOfInput, "", 1⟩]) :=
    tokenize_of_layout (by simpa using hts (apart_cons (by decide) _) hsemicolon)
  exact ⟨t, parse_of_literal hliteral rfl htokens⟩

/-- Each smallest integer is reported by its digits, on the first line. -/
theorem message_of_mem_unread {ns : List Int} {error : SyntaxError} (h : error ∈ unread ns) :
    error.message = "could not parse: \"9223372036854775808\" as integer at line: 1" := by
  rw [unread, List.mem_replicate] at h
  rw [h.2]
  rfl

/-- The text of the value, with a semicolon behind it, is a program that runs in this way. -/
structure Value.ReadsBack (value : Value) (runs : String → Run RunResult) (m : Machine) : Prop where
  /-- there are no other errors than those for the smallest integers -/
  parsed : ∃ program, parse (value.inspect ++ ";") = .ok ⟨program, unread value.integers⟩
  /-- if there are no smallest integers, and only then, the value is got back and nothing is printed -/
  restored_iff : Word.smallest ∉ value.integers ↔
    ∃ program w m', (runs (value.inspect ++ ";")).run m = .ok ⟨program, [], some w⟩ m' ∧
      m'.output = m.output ∧ w.shape = value.shape
  /-- else the run ends with the errors -/
  reported : Word.smallest ∈ value.integers → ∃ program m',
    (runs (value.inspect ++ ";")).run m = .ok ⟨program, unread value.integers, none⟩ m' ∧
      m'.output = m.output

section Runs

variable {value w : Value} {ctx : Context} {scope : ScopeId} {m m' : Machine}

theorem unread_ne_nil {ns : List Int} (h : Word.smallest ∈ ns) : unread ns ≠ [] := by
  have hcount := List.count_pos_iff.2 h
  rw [unread, Ne, List.replicate_eq_nil_iff]
  omega

/-- The value of a program of one expression is the value of the expression. -/
theorem Program.eval_expression {t : Token} {e : Expr} (h : (e.eval ctx scope).run m = .ok w m')
    (hw : w.isExit = false) : (Program.eval ctx scope ⟨[.expression t e]⟩).run m = .ok w m' := by
  have hsequence : (Stmt.evalSequence ctx scope .null [.expression t e]).run m =
      .ok (.finished w) m' := by
    rw [Stmt.evalSequence, Stmt.eval, run_bind_of_ok h, if_neg (Bool.eq_false_iff.1 hw)]
    rfl
  unfold Program.eval
  rw [run_bind_of_ok hsequence]
  rfl

/-- Data is read back in every scope: its literal has no names. -/
theorem Value.IsDatum.readsBack (h : value.IsDatum) (limit : Nat) (scope : ScopeId) (m : Machine) :
    value.ReadsBack (run limit scope) m := by
  obtain ⟨t, hparse⟩ := h.exists_parse
  have hreported : Word.smallest ∈ value.integers →
      (run limit scope (value.inspect ++ ";")).run m =
        .ok ⟨⟨[.expression t value.literal]⟩, unread value.integers, none⟩ m := fun hmem =>
    run_of_errors hparse (unread_ne_nil hmem)
  refine ⟨⟨_, hparse⟩, ⟨fun hread => ?_, ?_⟩, fun hmem => ⟨_, m, hreported hmem, rfl⟩⟩
  · rw [unread_of_not_mem hread] at hparse
    obtain ⟨w, m', hrun, hshape, hout⟩ :=
      h.restored hread { m with supply := m.supply + 1 }
    refine ⟨⟨[.expression t value.literal]⟩, w, m', ?_, hout, hshape⟩
    rw [run_of_parse hparse, Program.eval_expression hrun (h.isExit_of_shape hshape)]
    rfl
  · rintro ⟨program, w, m', hrun, -⟩ hmem
    rw [hreported hmem] at hrun
    simp at hrun

end Runs

/-- Data is read back from its text, whatever has been run before, up to the identities of arrays and
hashes. Only the smallest integer is not: the text of data in which it stands, be it as a key, has one
syntax error for each place where it does, and no others. -/
theorem data_read_back {value : Value} (h : value.IsDatum) (limit : Nat) (m : Machine) :
    value.ReadsBack (runAlone limit) m ∧ (∀ scope, value.ReadsBack (run limit scope) m) ∧
      ∀ error ∈ unread value.integers,
        error.message = "could not parse: \"9223372036854775808\" as integer at line: 1" := by
  refine ⟨?_, fun scope => h.readsBack limit scope m, fun _ => message_of_mem_unread⟩
  have halone := h.readsBack limit m.scopes.size m.withScope
  exact ⟨halone.parsed, halone.restored_iff, halone.reported⟩

/-- A hash with keys of both types, a negative one among them. -/
def nestedData : Value :=
  .hash 4
    [(⟨.integer, Word.ofInt (-1)⟩, .integer (-1), .array 2 [.boolean true, .hash 1 []]),
      (⟨.boolean, 0⟩, .boolean false, .integer 9223372036854775807)]

/-- The smallest integer as an element and as a key. -/
def smallestTwice : Value :=
  .array 0 [.integer Word.smallest,
    .hash 1 [(⟨.integer, Word.ofInt Word.smallest⟩, .integer Word.smallest, .integer 0)]]

theorem isDatum_nestedData : nestedData.IsDatum := by
  have hminus : (Value.integer (-1)).IsAtom := .integer ⟨by decide, by decide⟩
  have hlargest : (Value.integer 9223372036854775807).IsDatum :=
    .atom (.integer ⟨by decide, by decide⟩)
  have hempty : (Value.hash 1 []).IsDatum := .hash 1 ⟨by simp, by simp, List.nodup_nil⟩ (by simp)
  have harray : (Value.array 2 [.boolean true, .hash 1 []]).IsDatum :=
    .array 2 (by simp [Value.IsDatum.atom (.boolean true), hempty])
  exact .hash 4 ⟨by simp [hminus, Value.IsAtom.boolean], by simp [Value.hashKey?], by decide⟩
    (by simp [harray, hlargest])

theorem isDatum_smallestTwice : smallestTwice.IsDatum := by
  have hsmallest : (Value.integer Word.smallest).IsAtom := .integer ⟨by decide, by decide⟩
  have hzero : (Value.integer 0).IsDatum := .atom (.integer ⟨by decide, by decide⟩)
  have hhash : (Value.hash 1 [(⟨.integer, Word.ofInt Word.smallest⟩, .integer Word.smallest,
      .integer 0)]).IsDatum :=
    .hash 1 ⟨by simp [hsmallest], by simp [Value.hashKey?], by decide⟩ (by simp [hzero])
  exact .array 0 (by simp [Value.IsDatum.atom hsmallest, hhash])

theorem data_read_back_of_nestedData :
    nestedData.IsDatum ∧ smallestTwice.IsDatum ∧
    (∃ program w m', (runAlone 10
        "\x7b-1: [true, \x7b\x7d], false: 9223372036854775807\x7d;").run .initial =
        .ok ⟨program, [], some w⟩ m' ∧ m'.output = "" ∧ w.shape = nestedData.shape) ∧
    ∃ program m', (runAlone 10 "[-9223372036854775808, \x7b-9223372036854775808: 0\x7d];").run
        .initial =
      .ok ⟨program, [⟨.integerOutOfRange "9223372036854775808", 1⟩,
        ⟨.integerOutOfRange "9223372036854775808", 1⟩], none⟩ m' ∧ m'.output = "" := by
  have hnested := (data_read_back isDatum_nestedData 10 .initial).1
  have htwice := (data_read_back isDatum_smallestTwice 10 .initial).1
  have htext : nestedData.inspect ++ ";" =
    "\x7b-1: [true, \x7b\x7d], false: 9223372036854775807\x7d;" := by decide +kernel
  have htext' : smallestTwice.inspect ++ ";" =
    "[-9223372036854775808, \x7b-9223372036854775808: 0\x7d];" := by decide +kernel
  refine ⟨isDatum_nestedData, isDatum_smallestTwice, ?_, ?_⟩
  · rw [← htext]
    exact hnested.restored_iff.1 (by decide)
  · rw [← htext']
    exact htwice.reported (by decide)

end MonkeyLang

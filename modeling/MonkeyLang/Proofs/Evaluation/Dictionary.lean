import MonkeyLang.Proofs.Evaluation.Identity

/-!
# Hashes are dictionaries

A hash literal is evaluated pair by pair, each key before its value, and comes to one of two ends if
not too many calls are nested. Either all pairs have values (`Expr.Paired`), and the hash
`Value.Collects` them: it has one entry under each hash key, in the order in which the hash keys first
occur, with the key and the value of the last pair under that hash key. Or there is a first part that
fails (`Expr.Fails`): it is an error itself, or it is a key that has no hash key.

Reading from a hash gives the value of the last pair with the same hash key. Keys with different hash
keys are different; numbers and booleans with the same hash key are equal, and for texts it is the hash
of their bytes that counts.
-/

namespace MonkeyLang

/-! ### Entries under their keys -/

namespace Dict

variable {κ α : Type} [DecidableEq κ] {entries : Dict κ α} {key : κ} {value : α}

theorem nodup_keys_insert (h : (keys entries).Nodup) : (keys (insert entries key value)).Nodup := by
  rw [keys_insert]
  split
  · exact h
  · next hnew =>
    refine List.nodup_append.2 ⟨h, List.pairwise_singleton _ _, fun k hk k' hk' => ?_⟩
    rw [List.mem_singleton.1 hk']
    rintro rfl
    exact hnew hk

/-- Where no key stands twice, a key is found with the value it stands with. -/
theorem find?_eq_some_iff (h : (keys entries).Nodup) :
    find? entries key = some value ↔ (key, value) ∈ entries := by
  refine ⟨mem_of_find?, fun hmem => ?_⟩
  induction entries with
  | nil => cases hmem
  | cons entry entries ih =>
    obtain ⟨hnew, hentries⟩ := List.nodup_cons.1 h
    rcases List.mem_cons.1 hmem with rfl | hmem
    · rw [find?, if_pos rfl]
    · have hne : entry.1 ≠ key := by
        rintro rfl
        exact hnew (List.mem_map.2 ⟨_, hmem, rfl⟩)
      rw [find?, if_neg hne]
      exact ih hentries hmem

end Dict

namespace Value

/-- The key and the value are those of the last pair under the hash key. -/
def LastUnder (kvs : List (Value × Value)) (hashKey : HashKey) (key value : Value) : Prop :=
  ∃ i, kvs[i]? = some (key, value) ∧ key.hashKey? = some hashKey ∧
    ∀ kv ∈ kvs.drop (i + 1), kv.1.hashKey? ≠ some hashKey

/-- The hash keys of the pairs that have one. -/
def hashKeys (kvs : List (Value × Value)) : List HashKey := kvs.filterMap fun kv => kv.1.hashKey?

/-- The entries are those of a dictionary of the pairs, in which the last pair under a hash key
counts. -/
structure Collects (kvs : List (Value × Value)) (entries : List (HashKey × Value × Value)) :
    Prop where
  /-- the hash keys in the order in which they first occur -/
  keys : Dict.keys entries = (hashKeys kvs).eraseDups
  nodup : (Dict.keys entries).Nodup
  mem_iff : ∀ hashKey key value, (hashKey, key, value) ∈ entries ↔ LastUnder kvs hashKey key value

section Collecting

variable {kvs : List (Value × Value)} {hashKey : HashKey} {key value : Value}
  {entries : List (HashKey × Value × Value)}

/-- If there is a pair under a hash key, there is a last one. -/
theorem exists_lastUnder (h : ∃ kv ∈ kvs, kv.1.hashKey? = some hashKey) :
    ∃ key value, LastUnder kvs hashKey key value := by
  induction kvs with
  | nil =>
    obtain ⟨kv, hkv, -⟩ := h
    cases hkv
  | cons kv kvs ih =>
    by_cases hlater : ∃ kv ∈ kvs, kv.1.hashKey? = some hashKey
    · obtain ⟨key, value, i, hi⟩ := ih hlater
      exact ⟨key, value, i + 1, hi⟩
    · obtain ⟨kv', hkv', hhash⟩ := h
      rcases List.mem_cons.1 hkv' with rfl | hkv'
      · exact ⟨kv'.1, kv'.2, 0, rfl, hhash, fun kv hkv he => hlater ⟨kv, hkv, he⟩⟩
      · exact absurd ⟨kv', hkv', hhash⟩ hlater

/-- The last pair under a hash key is what is found under it in the end. -/
theorem find?_storeAll_iff :
    Dict.find? (storeAll [] kvs) hashKey = some (key, value) ↔ LastUnder kvs hashKey key value := by
  constructor
  · intro hfind
    by_cases hsome : ∃ kv ∈ kvs, kv.1.hashKey? = some hashKey
    · obtain ⟨key', value', i, hi, hkey, hlast⟩ := exists_lastUnder hsome
      rw [find?_storeAll hi hkey hlast] at hfind
      cases hfind
      exact ⟨i, hi, hkey, hlast⟩
    · rw [find?_storeAll_of_ne fun kv hkv he => hsome ⟨kv, hkv, he⟩] at hfind
      cases hfind
  · rintro ⟨i, hi, hkey, hlast⟩
    exact find?_storeAll hi hkey hlast []

theorem nodup_keys_storeAll (kvs : List (Value × Value)) (h : (Dict.keys entries).Nodup) :
    (Dict.keys (storeAll entries kvs)).Nodup := by
  induction kvs generalizing entries with
  | nil => exact h
  | cons kv kvs ih =>
    rw [storeAll]
    split
    · exact ih (Dict.nodup_keys_insert h)
    · exact ih h

/-- The hash keys of pairs come behind those that have been stored before, if they are new. -/
theorem keys_storeAll (stored : List HashKey) (h : Dict.keys entries = stored.eraseDups) :
    Dict.keys (storeAll entries kvs) = (stored ++ hashKeys kvs).eraseDups := by
  induction kvs generalizing entries stored with
  | nil => rw [storeAll, h, hashKeys, List.filterMap_nil, List.append_nil]
  | cons kv kvs ih =>
    rw [storeAll, hashKeys, List.filterMap_cons]
    cases hhash : kv.1.hashKey? with
    | none => exact ih stored h
    | some hashKey =>
      dsimp only
      rw [List.append_cons]
      refine ih _ ?_
      rw [Dict.keys_insert, h, List.eraseDups_append]
      by_cases hold : hashKey ∈ stored <;> simp [List.removeAll, hold, List.eraseDups_cons]

theorem collects_storeAll (kvs : List (Value × Value)) : Collects kvs (storeAll [] kvs) := by
  have hnodup : (Dict.keys (storeAll [] kvs)).Nodup := nodup_keys_storeAll kvs List.nodup_nil
  refine ⟨keys_storeAll [] rfl, hnodup, fun hashKey key value => ?_⟩
  rw [← Dict.find?_eq_some_iff hnodup, find?_storeAll_iff]

end Collecting

/-! ### Reading from a hash -/

section Reading

variable {kvs : List (Value × Value)} {entries : List (HashKey × Value × Value)} {position : Value}
  {hashKey : HashKey}

theorem index_hash (id : ObjectId) (entries : List (HashKey × Value × Value))
    (hposition : position.hashKey? = some hashKey) :
    (hash id entries).index position = match Dict.find? entries hashKey with
      | some (_, value) => .ok value
      | none => .error (.missingKey (hash id entries).inspect position.inspect) := by
  cases hfind : Dict.find? entries hashKey <;> simp [index, hposition, hfind]

theorem Collects.find?_eq_some_iff (h : Collects kvs entries) {key value : Value} :
    Dict.find? entries hashKey = some (key, value) ↔ LastUnder kvs hashKey key value := by
  rw [Dict.find?_eq_some_iff h.nodup, h.mem_iff]

theorem Collects.find?_eq_none_iff (h : Collects kvs entries) :
    Dict.find? entries hashKey = none ↔ ∀ kv ∈ kvs, kv.1.hashKey? ≠ some hashKey := by
  constructor
  · intro hfind kv hkv hhash
    obtain ⟨key, value, hlast⟩ := exists_lastUnder ⟨kv, hkv, hhash⟩
    rw [h.find?_eq_some_iff.2 hlast] at hfind
    cases hfind
  · intro hnone
    cases hfind : Dict.find? entries hashKey with
    | none => rfl
    | some entry =>
      obtain ⟨i, hi, hkey, -⟩ := h.find?_eq_some_iff.1 hfind
      exact absurd hkey (hnone _ (List.mem_of_getElem? hi))

/-- What is read is the value of the last pair with the same hash key. -/
theorem Collects.index_eq_ok_iff (h : Collects kvs entries) (id : ObjectId)
    (hposition : position.hashKey? = some hashKey) (value : Value) :
    (hash id entries).index position = .ok value ↔ ∃ key, LastUnder kvs hashKey key value := by
  rw [index_hash id entries hposition]
  constructor
  · intro hindex
    cases hfind : Dict.find? entries hashKey with
    | none => rw [hfind] at hindex; cases hindex
    | some entry =>
      rw [hfind] at hindex
      cases hindex
      exact ⟨entry.1, h.find?_eq_some_iff.1 hfind⟩
  · rintro ⟨key, hlast⟩
    rw [h.find?_eq_some_iff.2 hlast]

/-- Nothing is read if there is no pair with the same hash key. -/
theorem Collects.index_eq_error_iff (h : Collects kvs entries) (id : ObjectId)
    (hposition : position.hashKey? = some hashKey) :
    (hash id entries).index position =
        .error (.missingKey (hash id entries).inspect position.inspect) ↔
      ∀ kv ∈ kvs, kv.1.hashKey? ≠ some hashKey := by
  rw [index_hash id entries hposition, ← h.find?_eq_none_iff]
  cases Dict.find? entries hashKey <;> simp

end Reading

/-! ### Hash keys -/

theorem type_of_hashKey? {key : Value} {hashKey : HashKey} (h : key.hashKey? = some hashKey) :
    hashKey.type = key.type := by
  cases key <;> first | (cases h; rfl) | cases h

theorem hashKey?_boolean_iff (a b : Bool) :
    (boolean a).hashKey? = (boolean b).hashKey? ↔ (boolean a).Equals (boolean b) := by
  cases a <;> cases b <;> simp [equals_iff, type, same, hashKey?]

theorem equals_text_iff (s t : String) : (text s).Equals (text t) ↔ s = t := by
  simp [equals_iff, type, same]

theorem hashKey?_text_iff (s t : String) : (text s).hashKey? = (text t).hashKey? ↔
    Word.fnv1a s.toUTF8.data.toList = Word.fnv1a t.toUTF8.data.toList := by
  simp [hashKey?]

end Value

/-! ### Literals -/

namespace Expr

/-- The pairs of expressions fail, the keys before their values: the first part that fails comes to
this error. -/
inductive Fails (ctx : Context) (scope : ScopeId) :
    List (Expr × Expr) → Machine → Value → Machine → Prop
  | key {keyExpr valueExpr ps error m m₁} : (keyExpr.eval ctx scope).run m = .ok error m₁ →
      error.isError → Fails ctx scope ((keyExpr, valueExpr) :: ps) m error m₁
  /-- the value of such a key is not evaluated -/
  | unhashable {keyExpr valueExpr ps key m m₁} : (keyExpr.eval ctx scope).run m = .ok key m₁ →
      key.isError = false → key.hashKey? = none →
      Fails ctx scope ((keyExpr, valueExpr) :: ps) m (.error m₁.supply (.unhashableKey key.type))
        { m₁ with supply := m₁.supply + 1 }
  | value {keyExpr valueExpr ps key hashKey error m m₁ m₂} :
      (keyExpr.eval ctx scope).run m = .ok key m₁ → key.hashKey? = some hashKey →
      (valueExpr.eval ctx scope).run m₁ = .ok error m₂ → error.isError →
      Fails ctx scope ((keyExpr, valueExpr) :: ps) m error m₂
  | later {keyExpr valueExpr ps key hashKey value error m m₁ m₂ m₃} :
      (keyExpr.eval ctx scope).run m = .ok key m₁ → key.hashKey? = some hashKey →
      (valueExpr.eval ctx scope).run m₁ = .ok value m₂ → value.isError = false →
      Fails ctx scope ps m₂ error m₃ → Fails ctx scope ((keyExpr, valueExpr) :: ps) m error m₃

section Pairs

variable {ctx : Context} {scope : ScopeId} {ps : List (Expr × Expr)} {m m' : Machine} {error : Value}

theorem Fails.isError (h : Fails ctx scope ps m error m') : error.isError := by
  induction h with
  | key _ herror => exact herror
  | unhashable => rfl
  | value _ _ _ herror => exact herror
  | later _ _ _ _ _ ih => exact ih

theorem Fails.run (h : Fails ctx scope ps m error m') (entries : List (HashKey × Value × Value)) :
    (evalPairs ctx scope entries ps).run m = .ok (.error error) m' := by
  induction h generalizing entries with
  | key hkey herror =>
    rw [evalPairs, run_bind_of_ok hkey, if_pos herror]
    rfl
  | unhashable hkey hok hhash =>
    rw [evalPairs, run_bind_of_ok hkey, if_neg (Bool.eq_false_iff.1 hok), hhash]
    rfl
  | value hkey hhash hvalue herror =>
    rw [evalPairs, run_bind_of_ok hkey,
      if_neg (Bool.eq_false_iff.1 (Value.isError_of_hashKey? hhash)), hhash]
    dsimp only
    rw [run_bind_of_ok hvalue, if_pos herror]
    rfl
  | later hkey hhash hvalue hok _ ih =>
    rw [evalPairs, run_bind_of_ok hkey,
      if_neg (Bool.eq_false_iff.1 (Value.isError_of_hashKey? hhash)), hhash]
    dsimp only
    rw [run_bind_of_ok hvalue, if_neg (Bool.eq_false_iff.1 hok), ih]

/-- Pairs that do not nest too many calls have values or fail. -/
theorem evalPairs_ends (ps : List (Expr × Expr)) (m : Machine)
    (entries : List (HashKey × Value × Value)) :
    Ensures (evalPairs ctx scope entries ps) m
      (fun r m' => match r with
        | .ok _ => ∃ kvs, Paired ctx scope ps m kvs m'
        | .error error => Fails ctx scope ps m error m') fun _ _ => True := by
  induction ps generalizing m entries with
  | nil =>
    rw [evalPairs]
    exact ⟨[], .nil⟩
  | cons p ps ih =>
    obtain ⟨keyExpr, valueExpr⟩ := p
    rw [evalPairs]
    refine Ensures.bind ((ensures_any _).and_run.mono (fun _ _ h => h.2) fun _ _ _ => trivial)
      fun key m₁ hkey => ?_
    cases hok : key.isError with
    | true => exact .key hkey hok
    | false =>
      cases hhash : key.hashKey? with
      | none => exact .unhashable hkey hok hhash
      | some hashKey =>
        refine Ensures.bind ((ensures_any _).and_run.mono (fun _ _ h => h.2) fun _ _ _ => trivial)
          fun value m₂ hvalue => ?_
        cases hok' : value.isError with
        | true => exact .value hkey hhash hvalue hok'
        | false =>
          refine (ih m₂ _).mono (fun r m₃ hr => ?_) fun _ _ h => h
          cases r with
          | ok _ =>
            obtain ⟨kvs, hkvs⟩ := hr
            exact ⟨(key, value) :: kvs, .cons hkey hhash hvalue hok' hkvs⟩
          | error error => exact .later hkey hhash hvalue hok' hr

end Pairs

/-- A hash literal comes to a dictionary of its pairs, or to the first failure in them. -/
structure MakesDictionary (ctx : Context) (scope : ScopeId) (token : Token)
    (ps : List (Expr × Expr)) (m : Machine) : Prop where
  collects : ∀ kvs m', Paired ctx scope ps m kvs m' → ∃ entries, Value.Collects kvs entries ∧
    ((Expr.hash token ps).eval ctx scope).run m =
      .ok (.hash m'.supply entries) { m' with supply := m'.supply + 1 }
  /-- what stands behind a failure is not evaluated: the machine is that of the failure -/
  fails : ∀ error m', Fails ctx scope ps m error m' → error.isError ∧
    ((Expr.hash token ps).eval ctx scope).run m = .ok error m'
  /-- and nothing else, unless too many calls are nested -/
  ends : ∀ value m', ((Expr.hash token ps).eval ctx scope).run m = .ok value m' →
    (∃ kvs m'', Paired ctx scope ps m kvs m'') ∨ Fails ctx scope ps m value m'

theorem makesDictionary (ctx : Context) (scope : ScopeId) (token : Token)
    (ps : List (Expr × Expr)) (m : Machine) : MakesDictionary ctx scope token ps m where
  collects := by
    intro kvs m' h
    refine ⟨Value.storeAll [] kvs, Value.collects_storeAll kvs, ?_⟩
    rw [eval, run_bind_of_ok (h.run [])]
    rfl
  fails := by
    intro error m' h
    refine ⟨h.isError, ?_⟩
    rw [eval, run_bind_of_ok (h.run [])]
    rfl
  ends := by
    intro value m' hrun
    have hends : Ensures ((Expr.hash token ps).eval ctx scope) m
        (fun value m' =>
          (∃ kvs m'', Paired ctx scope ps m kvs m'') ∨ Fails ctx scope ps m value m')
        fun _ _ => True := by
      rw [eval]
      refine (evalPairs_ends ps m []).bind fun r m₁ hr => ?_
      cases r with
      | ok entries =>
        obtain ⟨kvs, hkvs⟩ := hr
        exact .inl ⟨kvs, m₁, hkvs⟩
      | error error => exact .inr hr
    exact hends.of_ok hrun

end Expr

/-- Hashes are dictionaries that keep the order of insertion, and in which the last pair counts: their
literals make them so or fail at the first part that fails, and what is read from them is what was
stored last under the same hash key. Different types have different hash keys; numbers and booleans
have the same one exactly when they are equal, and texts when their bytes have the same hash, as those
of equal texts have. -/
theorem hashes_are_dictionaries :
    (∀ ctx scope token ps m, Expr.MakesDictionary ctx scope token ps m) ∧
    (∀ (id : ObjectId) (kvs : List (Value × Value)) entries (position : Value) hashKey,
      Value.Collects kvs entries → position.hashKey? = some hashKey →
        (∀ value, (Value.hash id entries).index position = .ok value ↔
          ∃ key, Value.LastUnder kvs hashKey key value) ∧
        ((Value.hash id entries).index position =
            .error (.missingKey (Value.hash id entries).inspect position.inspect) ↔
          ∀ kv ∈ kvs, kv.1.hashKey? ≠ some hashKey)) ∧
    (∀ hash key : String, (Fault.missingKey hash key).message =
      "No hash pair in \"" ++ hash ++ "\" with key \"" ++ key ++ "\"") ∧
    (∀ (key key' : Value) hashKey, key.hashKey? = some hashKey → key'.hashKey? = some hashKey →
      key.type = key'.type) ∧
    (∀ a b : Int, Word.InRange a → Word.InRange b →
      ((Value.integer a).hashKey? = (Value.integer b).hashKey? ↔
        (Value.integer a).Equals (.integer b))) ∧
    (∀ a b : Bool, (Value.boolean a).hashKey? = (Value.boolean b).hashKey? ↔
      (Value.boolean a).Equals (.boolean b)) ∧
    ∀ s t : String, ((Value.text s).Equals (.text t) →
        (Value.text s).hashKey? = (Value.text t).hashKey?) ∧
      ((Value.text s).hashKey? = (Value.text t).hashKey? ↔
        Word.fnv1a s.toUTF8.data.toList = Word.fnv1a t.toUTF8.data.toList) := by
  refine ⟨Expr.makesDictionary, ?_, fun _ _ => rfl, ?_, fun _ _ => Value.hashKey_eq_iff,
    Value.hashKey?_boolean_iff, fun s t => ⟨?_, Value.hashKey?_text_iff s t⟩⟩
  · intro id kvs entries position hashKey h hposition
    exact ⟨h.index_eq_ok_iff id hposition, h.index_eq_error_iff id hposition⟩
  · intro key key' hashKey hkey hkey'
    rw [← Value.type_of_hashKey? hkey, Value.type_of_hashKey? hkey']
  · rw [Value.equals_text_iff]
    rintro rfl
    rfl

/-- The pairs of a literal with keys of all types, one of them repeated. -/
def mixedPairs : List (Expr × Expr) :=
  let token : Token := ⟨.integer, "1", 1⟩
  [(.integer token 1, .text token "first"), (.boolean token true, .integer token 2),
    (.text token "1", .integer token 3), (.integer token 1, .text token "last")]

/-- Their values. -/
def mixedValues : List (Value × Value) :=
  [(.integer 1, .text "first"), (.boolean true, .integer 2), (.text "1", .integer 3),
    (.integer 1, .text "last")]

/-- The hash of the literal gives the last value of the repeated key, and nothing for a key that is not
among them; and a key that has no hash key is told before its value is evaluated. -/
theorem hashes_are_dictionaries_of_mixedPairs :
    Expr.Paired (.ofTable 0 1) 0 mixedPairs .initial mixedValues .initial ∧
    (∃ entries, Value.Collects mixedValues entries ∧
      ((Expr.hash ⟨.leftBrace, "\x7b", 1⟩ mixedPairs).eval (.ofTable 0 1) 0).run .initial =
        .ok (.hash 0 entries) { Machine.initial with supply := 1 } ∧
      (Value.hash 0 entries).index (.integer 1) = .ok (.text "last") ∧
      (Value.hash 0 entries).index (.integer 2) =
        .error (.missingKey (Value.hash 0 entries).inspect "2")) ∧
    Expr.Fails (.ofTable 0 1) 0 [(.array ⟨.leftBracket, "[", 1⟩ [], .missing)] .initial
      (.error 1 (.unhashableKey .array)) { Machine.initial with supply := 2 } ∧
    ((Expr.hash ⟨.leftBrace, "\x7b", 1⟩ [(.array ⟨.leftBracket, "[", 1⟩ [], .missing)]).eval
      (.ofTable 0 1) 0).run .initial =
        .ok (.error 1 (.unhashableKey .array)) { Machine.initial with supply := 2 } := by
  have hpaired : Expr.Paired (.ofTable 0 1) 0 mixedPairs .initial mixedValues .initial :=
    .cons rfl rfl rfl rfl <| .cons rfl rfl rfl rfl <| .cons rfl rfl rfl rfl <|
      .cons rfl rfl rfl rfl .nil
  have hlast : Value.LastUnder mixedValues ⟨.integer, 1⟩ (.integer 1) (.text "last") :=
    ⟨3, rfl, rfl, by simp [mixedValues]⟩
  have hmissing : ∀ kv ∈ mixedValues, kv.1.hashKey? ≠ some ⟨.integer, 2⟩ := by decide
  have harray : ((Expr.array ⟨.leftBracket, "[", 1⟩ []).eval (.ofTable 0 1) 0).run .initial =
      .ok (.array 0 []) { Machine.initial with supply := 1 } := rfl
  have hfails : Expr.Fails (.ofTable 0 1) 0 [(.array ⟨.leftBracket, "[", 1⟩ [], .missing)] .initial
      (.error 1 (.unhashableKey .array)) { Machine.initial with supply := 2 } :=
    .unhashable harray rfl rfl
  obtain ⟨entries, hcollects, hrun⟩ :=
    (hashes_are_dictionaries.1 (.ofTable 0 1) 0 ⟨.leftBrace, "\x7b", 1⟩ mixedPairs .initial).collects
      mixedValues .initial hpaired
  have hreads := hashes_are_dictionaries.2.1 0 mixedValues entries
  refine ⟨hpaired, ⟨entries, hcollects, hrun, ?_, ?_⟩, hfails, ?_⟩
  · exact ((hreads (.integer 1) _ hcollects rfl).1 _).2 ⟨_, hlast⟩
  · exact (hreads (.integer 2) _ hcollects rfl).2.2 hmissing
  · exact ((hashes_are_dictionaries.1 _ _ _ _ _).fails _ _ hfails).2

end MonkeyLang

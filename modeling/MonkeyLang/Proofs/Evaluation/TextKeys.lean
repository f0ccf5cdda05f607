import MonkeyLang.Proofs.Evaluation.Dictionary

/-!
# Texts as keys

A step of the hash of a text can be taken back: the byte is mixed in by an exclusive or, and the
multiplier has an inverse modulo `2^64`. So the hash after some bytes determines the hash before them,
and a common rest makes no difference (`fnv1a_append_right_inj`). As a step also tells the bytes apart,
sequences of bytes that differ in one byte have different hashes (`fnv1a_ne`), and texts with such
bytes never take each other's place in a hash.
-/

namespace MonkeyLang

/-! ### The hash of bytes -/

namespace Word

/-- The inverse of the multiplier of the FNV hash. -/
def fnvInverse : UInt64 := 0xce965057aff6957b

theorem fnvPrime_mul_fnvInverse : fnvPrime * fnvInverse = 1 := by decide

/-- What is multiplied can be recovered. -/
theorem mul_fnvPrime_injective : Function.Injective (· * fnvPrime) := by
  have hcancel : ∀ n : UInt64, n * fnvPrime * fnvInverse = n := by
    intro n
    rw [UInt64.mul_assoc, fnvPrime_mul_fnvInverse, UInt64.mul_one]
  intro a b h
  calc a = a * fnvPrime * fnvInverse := (hcancel a).symm
    _ = b * fnvPrime * fnvInverse := congrArg (· * fnvInverse) h
    _ = b := hcancel b

theorem fnvStep_left_inj {a b : UInt64} {byte : UInt8} :
    fnvStep a byte = fnvStep b byte ↔ a = b :=
  mul_fnvPrime_injective.eq_iff.trans (UInt64.xor_left_inj _)

theorem fnvStep_right_inj {hash : UInt64} {x y : UInt8} :
    fnvStep hash x = fnvStep hash y ↔ x = y :=
  (mul_fnvPrime_injective.eq_iff.trans (UInt64.xor_right_inj hash)).trans UInt8.toUInt64_inj

/-- The hash after some bytes determines the hash before them. -/
theorem foldl_fnvStep_inj {a b : UInt64} (bytes : List UInt8) :
    bytes.foldl fnvStep a = bytes.foldl fnvStep b ↔ a = b := by
  induction bytes generalizing a b with
  | nil => exact Iff.rfl
  | cons byte bytes ih => exact ih.trans fnvStep_left_inj

theorem fnv1a_append (a s : List UInt8) : fnv1a (a ++ s) = s.foldl fnvStep (fnv1a a) :=
  List.foldl_append

/-- A common rest makes no difference. -/
theorem fnv1a_append_right_inj (a b s : List UInt8) :
    fnv1a (a ++ s) = fnv1a (b ++ s) ↔ fnv1a a = fnv1a b := by
  rw [fnv1a_append, fnv1a_append, foldl_fnvStep_inj]

/-- Neither a common beginning nor a common rest hides that a byte is different. -/
theorem fnv1a_ne (p s : List UInt8) {x y : UInt8} (h : x ≠ y) :
    fnv1a (p ++ x :: s) ≠ fnv1a (p ++ y :: s) := by
  rw [fnv1a_append, fnv1a_append, List.foldl_cons, List.foldl_cons, Ne, foldl_fnvStep_inj,
    fnvStep_right_inj]
  exact h

end Word

/-! ### Texts that differ in one byte -/

/-- The sequences are equally long and differ at exactly one position. -/
def OneByteApart (a b : List UInt8) : Prop := a.length = b.length ∧ ∃! i : Nat, a[i]? ≠ b[i]?

theorem oneByteApart_iff {a b : List UInt8} :
    OneByteApart a b ↔ ∃ p s x y, x ≠ y ∧ a = p ++ x :: s ∧ b = p ++ y :: s := by
  constructor
  · rintro ⟨hlength, i, hi, honly⟩
    -- up to the position, and behind it, the sequences are equal
    have hsame : ∀ j, j ≠ i → a[j]? = b[j]? := fun j hj => by_contra fun h => hj (honly j h)
    have hlt : i < a.length := by
      by_contra hge
      have hge' : b.length ≤ i := hlength ▸ Nat.le_of_not_lt hge
      exact hi (by rw [List.getElem?_eq_none (Nat.le_of_not_lt hge), List.getElem?_eq_none hge'])
    have hlt' : i < b.length := hlength ▸ hlt
    have htake : a.take i = b.take i := by
      refine List.ext_getElem? fun j => ?_
      rw [List.getElem?_take, List.getElem?_take]
      split
      · next hj => exact hsame j (by omega)
      · rfl
    have hdrop : a.drop (i + 1) = b.drop (i + 1) := by
      refine List.ext_getElem? fun j => ?_
      rw [List.getElem?_drop, List.getElem?_drop]
      exact hsame _ (by omega)
    refine ⟨a.take i, a.drop (i + 1), a[i], b[i], ?_, ?_, ?_⟩
    · intro he
      exact hi (by rw [List.getElem?_eq_getElem hlt, List.getElem?_eq_getElem hlt', he])
    · rw [List.getElem_cons_drop, List.take_append_drop]
    · rw [htake, hdrop, List.getElem_cons_drop, List.take_append_drop]
  · rintro ⟨p, s, x, y, hne, rfl, rfl⟩
    refine ⟨by simp, p.length, by simpa using hne, fun j hj => by_contra fun hne' => hj ?_⟩
    simp only [List.getElem?_append, List.getElem?_cons]
    split
    · rfl
    · rw [if_neg (by omega), if_neg (by omega)]

namespace Value

variable {s t : String}

/-- Texts that differ in one byte have different hash keys. -/
theorem hashKey?_text_ne (h : OneByteApart s.toUTF8.data.toList t.toUTF8.data.toList) :
    (text s).hashKey? ≠ (text t).hashKey? := by
  obtain ⟨p, rest, x, y, hne, hs, ht⟩ := oneByteApart_iff.1 h
  rw [Ne, hashKey?_text_iff, hs, ht]
  exact Word.fnv1a_ne p rest hne

/-- A pair is the last one under its hash key if there is no other one behind it, except perhaps one
that has another hash key in any case. -/
theorem lastUnder_of_ne {kvs : List (Value × Value)} {hashKey : HashKey} {i j : Nat}
    {key value : Value} {kv' : Value × Value} (hi : kvs[i]? = some (key, value))
    (hkey : key.hashKey? = some hashKey) (hj : kvs[j]? = some kv')
    (hne : kv'.1.hashKey? ≠ some hashKey)
    (hothers : ∀ k kv, i < k → k ≠ j → kvs[k]? = some kv → kv.1.hashKey? ≠ some hashKey) :
    LastUnder kvs hashKey key value := by
  refine ⟨i, hi, hkey, fun kv hkv => ?_⟩
  obtain ⟨k, hk⟩ := List.mem_iff_getElem?.1 hkv
  rw [List.getElem?_drop] at hk
  by_cases he : i + 1 + k = j
  · rw [he, hj] at hk
    cases hk
    exact hne
  · exact hothers _ kv (by omega) he hk

/-- A pair that is the last one under its hash key has the entry that is read under it. -/
theorem Collects.entry {kvs : List (Value × Value)} {entries : List (HashKey × Value × Value)}
    {hashKey : HashKey} {key value : Value} (h : Collects kvs entries)
    (hlast : LastUnder kvs hashKey key value) (id : ObjectId) :
    (hashKey, key, value) ∈ entries ∧ (hash id entries).index key = .ok value := by
  have hkey : key.hashKey? = some hashKey := by
    obtain ⟨_, _, hkey, _⟩ := hlast
    exact hkey
  exact ⟨(h.mem_iff _ _ _).2 hlast, (h.index_eq_ok_iff id hkey value).2 ⟨key, hlast⟩⟩

/-- Two pairs with different hash keys are stored as they are. -/
theorem storeAll_pair {key key' value value' : Value} {hashKey hashKey' : HashKey}
    (hkey : key.hashKey? = some hashKey) (hkey' : key'.hashKey? = some hashKey')
    (hne : hashKey ≠ hashKey') :
    storeAll [] [(key, value), (key', value')] =
      [(hashKey, key, value), (hashKey', key', value')] := by
  simp [storeAll, hkey, hkey', Dict.insert, hne]

end Value

/-- Texts that differ in one byte are different keys. The hash of bytes tells apart what is different
in one byte, whatever stands before and behind it, and what stands behind does not make hashes equal
that are different. So a hash literal with two such texts among its keys keeps an entry of each of them,
unless yet another key takes its place, and has no other entries if it has no other keys. -/
theorem texts_one_byte_apart_are_different_keys :
    (∀ a b s : List UInt8, Word.fnv1a (a ++ s) = Word.fnv1a (b ++ s) ↔
      Word.fnv1a a = Word.fnv1a b) ∧
    (∀ (p s : List UInt8) (x y : UInt8), x ≠ y →
      Word.fnv1a (p ++ x :: s) ≠ Word.fnv1a (p ++ y :: s)) ∧
    ∀ s t : String, OneByteApart s.toUTF8.data.toList t.toUTF8.data.toList →
      ∃ keyOfS keyOfT, (Value.text s).hashKey? = some keyOfS ∧
        (Value.text t).hashKey? = some keyOfT ∧ keyOfS ≠ keyOfT ∧
        ∀ ctx scope token ps m kvs m', Expr.Paired ctx scope ps m kvs m' → ∃ id entries m'',
          ((Expr.hash token ps).eval ctx scope).run m = .ok (.hash id entries) m'' ∧
          (∀ v w, kvs = [(.text s, v), (.text t, w)] →
            entries = [(keyOfS, .text s, v), (keyOfT, .text t, w)]) ∧
          ∀ (i j : Nat) (v w : Value), kvs[i]? = some (.text s, v) → kvs[j]? = some (.text t, w) →
            (∀ k kv, i < k → k ≠ j → kvs[k]? = some kv → kv.1.hashKey? ≠ some keyOfS) →
            (∀ k kv, j < k → k ≠ i → kvs[k]? = some kv → kv.1.hashKey? ≠ some keyOfT) →
              ((keyOfS, .text s, v) ∈ entries ∧ (Value.hash id entries).index (.text s) = .ok v) ∧
              (keyOfT, .text t, w) ∈ entries ∧ (Value.hash id entries).index (.text t) = .ok w := by
  refine ⟨Word.fnv1a_append_right_inj, fun p s _ _ => Word.fnv1a_ne p s, fun s t h => ?_⟩
  have hne := Value.hashKey?_text_ne h
  refine ⟨_, _, rfl, rfl, fun he => hne (congrArg some he), ?_⟩
  intro ctx scope token ps m kvs m' hpaired
  refine ⟨m'.supply, Value.storeAll [] kvs, { m' with supply := m'.supply + 1 }, ?_, ?_, ?_⟩
  · rw [Expr.eval, run_bind_of_ok (hpaired.run [])]
    rfl
  · rintro v w rfl
    exact Value.storeAll_pair rfl rfl fun he => hne (congrArg some he)
  · intro i j v w hi hj hs ht
    have hcollects := Value.collects_storeAll kvs
    exact ⟨hcollects.entry (Value.lastUnder_of_ne hi rfl hj hne.symm hs) _,
      hcollects.entry (Value.lastUnder_of_ne hj rfl hi hne ht) _⟩

/-- The pairs of a literal with two keys that differ in the second byte of an accented letter, and
with another key between them. -/
def accentedPairs : List (Expr × Expr) :=
  let token : Token := ⟨.text, "", 1⟩
  [(.text token "né", .integer token 1), (.boolean token true, .integer token 2),
    (.text token "nè", .integer token 3)]

/-- Their values. -/
def accentedValues : List (Value × Value) :=
  [(.text "né", .integer 1), (.boolean true, .integer 2), (.text "nè", .integer 3)]

/-- Both accented texts have an entry in the hash of the literal. -/
theorem texts_one_byte_apart_are_different_keys_of_accented :
    OneByteApart "né".toUTF8.data.toList "nè".toUTF8.data.toList ∧
    Word.fnv1a ([0x6e, 0xc3] ++ 0xa9 :: []) ≠ Word.fnv1a ([0x6e, 0xc3] ++ 0xa8 :: []) ∧
    Expr.Paired (.ofTable 0 1) 0 accentedPairs .initial accentedValues .initial ∧
    ∃ id entries m, ((Expr.hash ⟨.leftBrace, "\x7b", 1⟩ accentedPairs).eval (.ofTable 0 1) 0).run
        .initial = .ok (.hash id entries) m ∧
      (Value.hash id entries).index (.text "né") = .ok (.integer 1) ∧
      (Value.hash id entries).index (.text "nè") = .ok (.integer 3) := by
  have hapart : OneByteApart "né".toUTF8.data.toList "nè".toUTF8.data.toList :=
    oneByteApart_iff.2 ⟨[0x6e, 0xc3], [], 0xa9, 0xa8, by decide, by decide +kernel,
      by decide +kernel⟩
  have hpaired : Expr.Paired (.ofTable 0 1) 0 accentedPairs .initial accentedValues .initial :=
    .cons rfl rfl rfl rfl <| .cons rfl rfl rfl rfl <| .cons rfl rfl rfl rfl .nil
  obtain ⟨keyOfS, keyOfT, hs, ht, hne, hliteral⟩ :=
    texts_one_byte_apart_are_different_keys.2.2 "né" "nè" hapart
  obtain ⟨id, entries, m, hrun, -, hkeeps⟩ := hliteral _ _ ⟨.leftBrace, "\x7b", 1⟩ _ _ _ _ hpaired
  have hothers : ∀ (i j k : Nat) (hashKey : HashKey) (kv : Value × Value), hashKey.type = .text →
      (i = 0 ∧ j = 2 ∨ i = 2 ∧ j = 0) → i < k → k ≠ j → accentedValues[k]? = some kv →
        kv.1.hashKey? ≠ some hashKey := by
    intro i j k hashKey kv htype hij hik hkj hk
    match k with
    | 0 => omega
    | 1 =>
      cases hk
      rintro ⟨⟩
      cases htype
    | 2 => omega
    | _ + 3 => cases hk
  have hsType : keyOfS.type = .text := Value.type_of_hashKey? hs
  have htType : keyOfT.type = .text := Value.type_of_hashKey? ht
  obtain ⟨⟨-, hreadS⟩, -, hreadT⟩ := hkeeps 0 2 _ _ rfl rfl
    (fun k kv => hothers 0 2 k _ kv hsType (.inl ⟨rfl, rfl⟩))
    (fun k kv => hothers 2 0 k _ kv htType (.inr ⟨rfl, rfl⟩))
  exact ⟨hapart, texts_one_byte_apart_are_different_keys.2.1 [0x6e, 0xc3] [] 0xa9 0xa8 (by decide),
    hpaired, id, entries, m, hrun, hreadS, hreadT⟩

end MonkeyLang

/-!
# Dictionaries in insertion order

A dictionary is a list of keys with their values, in which a key stands at most once if it is built
by `Dict.insert`. A key inserted again keeps its place and takes the new value.
-/

namespace MonkeyLang

/-- A dictionary, its entries in the order in which their keys were first inserted. -/
abbrev Dict (κ α : Type) := List (κ × α)

namespace Dict

variable {κ α : Type} [DecidableEq κ]

/-- The value of a key. -/
def find? : Dict κ α → κ → Option α
  | [], _ => none
  | (k, a) :: entries, key => if k = key then some a else find? entries key

/-- Gives a key a value: in its old place if it has one, else at the end. -/
def insert : Dict κ α → κ → α → Dict κ α
  | [], key, value => [(key, value)]
  | (k, a) :: entries, key, value =>
    if k = key then (key, value) :: entries else (k, a) :: insert entries key value

/-- The keys in the order of their first insertion. -/
def keys (entries : Dict κ α) : List κ := entries.map Prod.fst

/-- An inserted key has the new value, every other key keeps its own. -/
theorem find?_insert (entries : Dict κ α) (key : κ) (value : α) (key' : κ) :
    find? (insert entries key value) key' =
      if key = key' then some value else find? entries key' := by
  induction entries with
  | nil => simp [insert, find?]
  | cons entry entries ih =>
    obtain ⟨k, a⟩ := entry
    by_cases h : k = key
    · by_cases h' : key = key' <;> simp_all [insert, find?]
    · by_cases h' : key = key' <;> by_cases h'' : k = key' <;> simp_all [insert, find?]

/-- Insertion adds a key at the end, and only if it is new. -/
theorem keys_insert (entries : Dict κ α) (key : κ) (value : α) :
    keys (insert entries key value) =
      if key ∈ keys entries then keys entries else keys entries ++ [key] := by
  induction entries with
  | nil => simp [insert, keys]
  | cons entry entries ih =>
    obtain ⟨k, a⟩ := entry
    by_cases h : k = key
    · simp_all [insert, keys]
    · have h' : key ≠ k := fun e => h e.symm
      by_cases hk : key ∈ keys entries <;> simp_all [insert, keys]

theorem mem_of_find? {entries : Dict κ α} {key : κ} {value : α}
    (h : find? entries key = some value) : (key, value) ∈ entries := by
  induction entries with
  | nil => cases h
  | cons entry entries ih =>
    obtain ⟨k, a⟩ := entry
    unfold find? at h
    by_cases hk : k = key
    · rw [if_pos hk] at h
      cases h
      rw [hk]
      exact List.mem_cons_self
    · rw [if_neg hk] at h
      exact List.mem_cons_of_mem _ (ih h)

/-- Insertion brings in no other entry than the one inserted. -/
theorem mem_insert {entries : Dict κ α} {key : κ} {value : α} {entry : κ × α}
    (h : entry ∈ insert entries key value) : entry = (key, value) ∨ entry ∈ entries := by
  induction entries with
  | nil => exact .inl (List.mem_singleton.1 h)
  | cons e entries ih =>
    obtain ⟨k, a⟩ := e
    unfold insert at h
    by_cases hk : k = key
    · rw [if_pos hk] at h
      rcases List.mem_cons.1 h with h | h
      · exact .inl h
      · exact .inr (List.mem_cons_of_mem _ h)
    · rw [if_neg hk] at h
      rcases List.mem_cons.1 h with h | h
      · exact .inr (h ▸ List.mem_cons_self)
      · exact (ih h).imp_right (List.mem_cons_of_mem _)

/-- A new key goes to the end. -/
theorem insert_of_find?_eq_none {entries : Dict κ α} {key : κ} {value : α}
    (h : find? entries key = none) : insert entries key value = entries ++ [(key, value)] := by
  induction entries with
  | nil => rfl
  | cons entry entries ih =>
    obtain ⟨k, a⟩ := entry
    unfold find? at h
    by_cases hk : k = key
    · rw [if_pos hk] at h; cases h
    · rw [if_neg hk] at h
      unfold insert
      rw [if_neg hk, ih h]
      rfl

/-- Entries added at the end hide none. -/
theorem find?_append_of_eq_some {entries : Dict κ α} {key : κ} {value : α}
    (h : find? entries key = some value) (added : Dict κ α) :
    find? (entries ++ added) key = some value := by
  induction entries with
  | nil => cases h
  | cons entry entries ih =>
    obtain ⟨k, a⟩ := entry
    rw [List.cons_append]
    unfold find? at h ⊢
    by_cases hk : k = key
    · rwa [if_pos hk] at h ⊢
    · rw [if_neg hk] at h ⊢
      exact ih h

/-! ### Other values under the same keys -/

/-- The dictionary with `f` applied to its values. -/
def mapValues {κ α β : Type} (f : α → β) (entries : Dict κ α) : Dict κ β :=
  entries.map (Prod.map id f)

@[simp] theorem keys_mapValues {κ α β : Type} (f : α → β) (entries : Dict κ α) :
    keys (mapValues f entries) = keys entries := by
  simp [keys, mapValues]

section MapValues

variable {β : Type} (f : α → β) (entries : Dict κ α) (key : κ)

theorem find?_mapValues : find? (mapValues f entries) key = (find? entries key).map f := by
  induction entries with
  | nil => rfl
  | cons entry entries ih =>
    show (if entry.1 = key then some (f entry.2) else find? (mapValues f entries) key) = _
    rw [ih, find?]
    split <;> rfl

theorem insert_mapValues (value : α) :
    insert (mapValues f entries) key (f value) = mapValues f (insert entries key value) := by
  induction entries with
  | nil => rfl
  | cons entry entries ih =>
    show (if entry.1 = key then (key, f value) :: mapValues f entries
      else (entry.1, f entry.2) :: insert (mapValues f entries) key (f value)) = _
    rw [ih, insert]
    split <;> rfl

end MapValues

end Dict

end MonkeyLang

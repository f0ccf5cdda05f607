import Mathlib.Data.List.Induction
import MonkeyLang.Proofs.FrontEnds

/-!
# Reading the arguments

An argument decides the matter (`Decides`) if it asks for help, if it is an unknown flag, or if it is
another word than a flag after the path has been given. The arguments up to the first such one are only
collected: `read_append` says that what has been read of them are the path, if there is one, and which
of the two flags there are. So the first argument that decides gives the answer, and where there is
none the order of the arguments makes no difference, except for the empty ones, which are no path and
yet cannot follow one.
-/

namespace MonkeyLang.Cli

/-- The argument asks for the help text. -/
def IsHelp (argument : String) : Prop := argument = "--help" ∨ argument = "-h"

/-- The argument is one of the flags that say how a program is treated. -/
def IsSwitch (argument : String) : Prop := argument = "--ast" ∨ argument = "--quiet"

/-- The argument is written as a flag. -/
def IsFlag (argument : String) : Prop := argument.toList.head? = some '-'

instance : DecidablePred IsHelp := fun _ => inferInstanceAs (Decidable (_ ∨ _))

instance : DecidablePred IsSwitch := fun _ => inferInstanceAs (Decidable (_ ∨ _))

instance : DecidablePred IsFlag := fun _ => inferInstanceAs (Decidable (_ = _))

theorem isPath_iff (argument : String) : IsPath argument ↔ argument ≠ "" ∧ ¬ IsFlag argument :=
  ⟨fun h => ⟨h.1, h.2⟩, fun h => ⟨h.1, h.2⟩⟩

instance : DecidablePred IsPath := fun argument => decidable_of_iff' _ (isPath_iff argument)

/-- After the arguments before it, the argument decides the matter. -/
def Decides (before : List String) (argument : String) : Prop :=
  IsHelp argument ∨ (IsFlag argument ∧ ¬ IsSwitch argument) ∨
    (¬ IsFlag argument ∧ ∃ path ∈ before, IsPath path)

instance (before : List String) : DecidablePred (Decides before) :=
  fun _ => inferInstanceAs (Decidable (_ ∨ _ ∨ _))

/-- The argument at that place decides the matter. -/
def Stops (arguments : List String) (i : Nat) : Prop :=
  ∃ argument, arguments[i]? = some argument ∧ Decides (arguments.take i) argument

instance (arguments : List String) : DecidablePred (Stops arguments) :=
  fun i => inferInstanceAs (Decidable (∃ argument ∈ arguments[i]?, Decides _ argument))

/-- No argument decides the matter. -/
def Unstopped (arguments : List String) : Prop := ∀ i, ¬ Stops arguments i

/-- The first path among the arguments, or the empty text. -/
def firstPath (arguments : List String) : String := (arguments.find? (IsPath ·)).getD ""

/-- What the arguments say if none of them decides the matter. -/
def Options.ofArguments (arguments : List String) : Options :=
  ⟨firstPath arguments, "--ast" ∈ arguments, "--quiet" ∈ arguments⟩

/-- The request that an argument makes by itself when it decides the matter. -/
def Request.decidedBy (argument : String) : Request :=
  if IsHelp argument then .help
  else if IsFlag argument then .unknownFlag argument
  else .unexpectedArgument argument

section Paths

variable {arguments : List String} {argument : String}

theorem IsHelp.isFlag (h : IsHelp argument) : IsFlag argument := by
  rcases h with rfl | rfl <;> rfl

theorem IsSwitch.isFlag (h : IsSwitch argument) : IsFlag argument := by
  rcases h with rfl | rfl <;> rfl

theorem IsSwitch.not_isHelp (h : IsSwitch argument) : ¬ IsHelp argument := by
  rcases h with rfl | rfl <;> decide

theorem IsSwitch.not_isPath (h : IsSwitch argument) : ¬ IsPath argument := fun hpath =>
  hpath.no_flag h.isFlag

/-- Neither a path nor a flag is only the empty argument. -/
theorem isPath_of_not_isFlag (h : ¬ IsFlag argument) (hempty : argument ≠ "") : IsPath argument :=
  ⟨hempty, h⟩

theorem firstPath_eq_empty_iff : firstPath arguments = "" ↔ ∀ argument ∈ arguments, ¬ IsPath argument := by
  unfold firstPath
  cases hfind : arguments.find? (IsPath ·) with
  | none => simpa using hfind
  | some found =>
    have hfound : IsPath found := by simpa using List.find?_some hfind
    simp only [Option.getD_some]
    exact ⟨fun he => absurd he hfound.ne_empty,
      fun h => absurd hfound (h _ (List.mem_of_find?_eq_some hfind))⟩

theorem firstPath_append (before : List String) (argument : String) :
    firstPath (before ++ [argument]) =
      if firstPath before = "" ∧ IsPath argument then argument else firstPath before := by
  unfold firstPath
  rw [List.find?_append]
  cases hfind : before.find? (IsPath ·) with
  | none => by_cases hpath : IsPath argument <;> simp [hpath]
  | some found =>
    have hfound : IsPath found := by simpa using List.find?_some hfind
    simp [hfound.ne_empty]

end Paths

/-! ### One argument after the other -/

section Reading

variable {before rest arguments : List String} {argument : String}

theorem read_cons (options : Options) (argument : String) (rest : List String) :
    Request.read options (argument :: rest) =
      if IsHelp argument then .help
      else if argument = "--ast" then .read { options with showTree := true } rest
      else if argument = "--quiet" then .read { options with quiet := true } rest
      else if IsFlag argument then .unknownFlag argument
      else if options.path = "" then .read { options with path := argument } rest
      else .unexpectedArgument argument := rfl

/-- An argument that decides the matter gives the request. -/
theorem read_of_decides (h : Decides before argument) :
    Request.read (.ofArguments before) (argument :: rest) = .decidedBy argument := by
  rw [read_cons]
  unfold Request.decidedBy
  by_cases hhelp : IsHelp argument
  · rw [if_pos hhelp, if_pos hhelp]
  rw [if_neg hhelp, if_neg hhelp]
  have hswitch : ¬ IsSwitch argument := by
    rintro hswitch
    rcases h with hhelp' | ⟨-, hnot⟩ | ⟨hnot, -⟩
    · exact hhelp hhelp'
    · exact hnot hswitch
    · exact hnot hswitch.isFlag
  obtain ⟨hast, hquiet⟩ := not_or.1 hswitch
  rw [if_neg hast, if_neg hquiet]
  by_cases hflag : IsFlag argument
  · rw [if_pos hflag, if_pos hflag]
  · rw [if_neg hflag, if_neg hflag]
    obtain ⟨p, hp, hpath⟩ : ∃ p ∈ before, IsPath p := by
      rcases h with hhelp' | ⟨hflag', -⟩ | ⟨-, hpath⟩
      · exact absurd hhelp' hhelp
      · exact absurd hflag' hflag
      · exact hpath
    exact if_neg fun he => firstPath_eq_empty_iff.1 he p hp hpath

/-- Any other argument is added to what has been read. -/
theorem read_of_not_decides (h : ¬ Decides before argument) :
    Request.read (.ofArguments before) (argument :: rest) =
      Request.read (.ofArguments (before ++ [argument])) rest := by
  obtain ⟨hhelp, hflag, hpath⟩ : ¬ IsHelp argument ∧ (IsFlag argument → IsSwitch argument) ∧
      (¬ IsFlag argument → firstPath before = "") := by
    obtain ⟨hhelp, h⟩ := not_or.1 h
    obtain ⟨hflag, hpath⟩ := not_or.1 h
    refine ⟨hhelp, fun hf => by_contra fun hs => hflag ⟨hf, hs⟩, fun hf => ?_⟩
    exact firstPath_eq_empty_iff.2 fun p hp hpath' => hpath ⟨hf, p, hp, hpath'⟩
  rw [read_cons, if_neg hhelp]
  by_cases hswitch : IsSwitch argument
  · have hsame : firstPath (before ++ [argument]) = firstPath before := by
      rw [firstPath_append, if_neg fun hp => hswitch.not_isPath hp.2]
    rcases hswitch with rfl | rfl <;> simp [Options.ofArguments, hsame]
  · obtain ⟨hast, hquiet⟩ := not_or.1 hswitch
    have hnoflag : ¬ IsFlag argument := fun hf => hswitch (hflag hf)
    have hadded : firstPath (before ++ [argument]) = argument := by
      rw [firstPath_append, hpath hnoflag]
      by_cases hempty : argument = ""
      · rw [if_neg fun hp => hp.2.ne_empty hempty, hempty]
      · rw [if_pos ⟨rfl, isPath_of_not_isFlag hnoflag hempty⟩]
    rw [if_neg hast, if_neg hquiet, if_neg hnoflag]
    simp [Options.ofArguments, hadded, hpath hnoflag, Ne.symm hast, Ne.symm hquiet]

/-! ### All arguments -/

theorem Stops.append {i : Nat} (h : Stops before i) (rest : List String) :
    Stops (before ++ rest) i := by
  obtain ⟨argument, hi, hdecides⟩ := h
  have hlt : i < before.length := (List.getElem?_eq_some_iff.1 hi).1
  refine ⟨argument, ?_, ?_⟩
  · rw [List.getElem?_append_left hlt, hi]
  · rwa [List.take_append_of_le_length (Nat.le_of_lt hlt)]

theorem stops_length_iff : Stops (before ++ argument :: rest) before.length ↔
    Decides before argument := by
  simp [Stops]

/-- What has been read of arguments none of which decides the matter. -/
theorem read_append (h : Unstopped before) (rest : List String) :
    Request.ofArguments (before ++ rest) = Request.read (.ofArguments before) rest := by
  induction before using List.reverseRecOn generalizing rest with
  | nil => rfl
  | append_singleton before argument ih =>
    have hbefore : Unstopped before := fun i hi => h i (hi.append [argument])
    have hargument : ¬ Decides before argument := fun hd =>
      h before.length (stops_length_iff.2 hd)
    rw [List.append_assoc, List.singleton_append, ih hbefore, read_of_not_decides hargument]

/-- Without an argument that decides the matter, the arguments say what is to be done. -/
theorem ofArguments_of_unstopped (h : Unstopped arguments) :
    Request.ofArguments arguments = .proceed (.ofArguments arguments) := by
  have hread := read_append h []
  rwa [List.append_nil] at hread

theorem unstopped_take {i : Nat} (h : ∀ j < i, ¬ Stops arguments j) :
    Unstopped (arguments.take i) := by
  intro j hj
  have hlt : j < i := by
    obtain ⟨argument, hj, -⟩ := hj
    have := (List.getElem?_eq_some_iff.1 hj).1
    rw [List.length_take] at this
    omega
  have happend := hj.append (arguments.drop i)
  rw [List.take_append_drop] at happend
  exact h j hlt happend

/-- The first argument that decides the matter gives the request, whatever stands behind it. -/
theorem ofArguments_of_first {i : Nat} (hdecides : Decides (arguments.take i) argument)
    (hfirst : ∀ j < i, ¬ Stops arguments j) (rest : List String) :
    Request.ofArguments (arguments.take i ++ argument :: rest) = .decidedBy argument := by
  rw [read_append (unstopped_take hfirst), read_of_decides hdecides]

end Reading

/-! ### The order of the arguments -/

section Order

variable {arguments arguments' : List String} {p : String}

/-- If no argument decides the matter, there is only one path. -/
theorem firstPath_eq (h : Unstopped arguments) (hp : IsPath p) (hmem : p ∈ arguments) :
    firstPath arguments = p := by
  obtain ⟨before, rest, rfl⟩ := List.append_of_mem hmem
  have hnone : before.find? (IsPath ·) = none := by
    refine List.find?_eq_none.2 fun q hq hpath => ?_
    exact h before.length (stops_length_iff.2 (.inr (.inr ⟨hp.no_flag, q, hq, by simpa using hpath⟩)))
  simp [firstPath, List.find?_append, hnone, hp]

theorem unstopped_append_iff {before : List String} {argument : String} :
    Unstopped (before ++ [argument]) ↔ Unstopped before ∧ ¬ Decides before argument := by
  constructor
  · intro h
    exact ⟨fun i hi => h i (hi.append [argument]), fun hd =>
      h before.length (stops_length_iff.2 hd)⟩
  · rintro ⟨hbefore, hargument⟩ i hi
    obtain ⟨argument', hi', hdecides⟩ := hi
    have hlt := (List.getElem?_eq_some_iff.1 hi').1
    rw [List.length_append, List.length_singleton] at hlt
    by_cases he : i = before.length
    · subst he
      exact hargument (stops_length_iff.1 ⟨argument', hi', hdecides⟩)
    · refine hbefore i ⟨argument', ?_, ?_⟩
      · rwa [List.getElem?_append_left (by omega)] at hi'
      · rwa [List.take_append_of_le_length (by omega)] at hdecides

/-- An argument that is not empty and does not decide the matter is a flag or the first path. -/
theorem not_decides_iff {before : List String} {argument : String} (h : argument ≠ "") :
    ¬ Decides before argument ↔
      IsSwitch argument ∨ (IsPath argument ∧ ∀ p ∈ before, ¬ IsPath p) := by
  constructor
  · intro hnot
    obtain ⟨-, hnot⟩ := not_or.1 hnot
    obtain ⟨hflag, hpath⟩ := not_or.1 hnot
    by_cases hf : IsFlag argument
    · exact .inl (by_contra fun hs => hflag ⟨hf, hs⟩)
    · exact .inr ⟨⟨h, hf⟩, fun p hp hpath' => hpath ⟨hf, p, hp, hpath'⟩⟩
  · rintro (hswitch | ⟨hpath, hnew⟩) (hhelp | ⟨hflag, hnot⟩ | ⟨hnot, p, hp, hpath'⟩)
    · exact hswitch.not_isHelp hhelp
    · exact hnot hswitch
    · exact hnot hswitch.isFlag
    · exact hpath.no_flag hhelp.isFlag
    · exact hpath.no_flag hflag
    · exact hnew p hp hpath'

/-- Without empty arguments, what counts is which arguments there are, and that only one is a path. -/
theorem unstopped_iff (h : "" ∉ arguments) : Unstopped arguments ↔
    (∀ argument ∈ arguments, IsSwitch argument ∨ IsPath argument) ∧
      arguments.countP (IsPath ·) ≤ 1 := by
  induction arguments using List.reverseRecOn with
  | nil => exact ⟨fun _ => ⟨nofun, by decide⟩, fun _ i => nofun⟩
  | append_singleton before argument ih =>
    have hbefore : "" ∉ before := fun hmem => h (List.mem_append_left _ hmem)
    have hargument : argument ≠ "" := fun he => h (by simp [he])
    have hnone : (∀ p ∈ before, ¬ IsPath p) ↔ before.countP (IsPath ·) = 0 := by
      simp [List.countP_eq_zero]
    rw [unstopped_append_iff, ih hbefore, not_decides_iff hargument, hnone, List.forall_mem_append,
      List.forall_mem_singleton, List.countP_append, List.countP_singleton]
    by_cases hpath : IsPath argument
    · have hswitch : ¬ IsSwitch argument := fun hs => hs.not_isPath hpath
      simp only [hpath, hswitch, decide_true, if_true, true_and, false_or, or_true, and_true]
      constructor
      · rintro ⟨⟨hall, -⟩, hzero⟩
        exact ⟨hall, by omega⟩
      · rintro ⟨hall, hle⟩
        exact ⟨⟨hall, by omega⟩, by omega⟩
    · simp only [hpath, decide_false, false_and, or_false, Bool.false_eq_true, if_false, Nat.add_zero]
      exact and_right_comm

/-- The arguments in another order, and some of the switches among them once more. -/
structure Rearranges (arguments arguments' : List String) : Prop where
  mem_iff : ∀ argument, argument ∈ arguments' ↔ argument ∈ arguments
  paths : arguments'.countP (IsPath ·) = arguments.countP (IsPath ·)

theorem rearranges_of_perm {flags : List String} (hflags : ∀ flag ∈ flags, IsSwitch flag ∧
    flag ∈ arguments) (h : arguments'.Perm (flags ++ arguments)) :
    Rearranges arguments arguments' where
  mem_iff argument := by
    rw [h.mem_iff, List.mem_append]
    exact ⟨fun hmem => hmem.elim (fun hf => (hflags _ hf).2) id, .inr⟩
  paths := by
    have hnone : flags.countP (IsPath ·) = 0 := by
      simpa [List.countP_eq_zero] using fun flag hflag => (hflags flag hflag).1.not_isPath
    rw [h.countP_eq, List.countP_append, hnone, Nat.zero_add]

/-- Two lists of arguments with the same paths and flags make the same request. -/
theorem ofArguments_congr (h : Unstopped arguments) (h' : Unstopped arguments')
    (hpath : ∀ p, IsPath p → (p ∈ arguments' ↔ p ∈ arguments))
    (hswitch : ∀ flag, IsSwitch flag → (flag ∈ arguments' ↔ flag ∈ arguments)) :
    Request.ofArguments arguments' = Request.ofArguments arguments := by
  have hfirst : firstPath arguments' = firstPath arguments := by
    by_cases hnone : ∀ argument ∈ arguments, ¬ IsPath argument
    · rw [firstPath_eq_empty_iff.2 hnone, firstPath_eq_empty_iff]
      exact fun p hmem hp => hnone p ((hpath p hp).1 hmem) hp
    · push Not at hnone
      obtain ⟨p, hmem, hp⟩ := hnone
      rw [firstPath_eq h hp hmem, firstPath_eq h' hp ((hpath p hp).2 hmem)]
  rw [ofArguments_of_unstopped h, ofArguments_of_unstopped h', Options.ofArguments, hfirst,
    Options.ofArguments]
  simp only [hswitch "--ast" (.inl rfl), hswitch "--quiet" (.inr rfl)]

/-- Without empty arguments, their order and the repetition of flags make no difference. -/
theorem Rearranges.ofArguments_eq (h : Rearranges arguments arguments') (hempty : "" ∉ arguments) :
    (Unstopped arguments' ↔ Unstopped arguments) ∧
      (Unstopped arguments → Request.ofArguments arguments' = Request.ofArguments arguments) := by
  have hempty' : "" ∉ arguments' := fun hmem => hempty ((h.mem_iff "").1 hmem)
  have hiff : Unstopped arguments' ↔ Unstopped arguments := by
    rw [unstopped_iff hempty, unstopped_iff hempty', h.paths]
    simp only [h.mem_iff]
  exact ⟨hiff, fun hu => ofArguments_congr hu (hiff.2 hu) (fun p _ => h.mem_iff p)
    fun flag _ => h.mem_iff flag⟩

end Order

/-! ### What is done -/

section Outcomes

variable {arguments : List String} {p : String} {limit : Nat}
  {files : String → Except ReadError ByteArray}

/-- Nothing is read when an argument decides the matter. -/
theorem execute_decidedBy (argument : String) (files : String → Except ReadError ByteArray)
    (input : String) : (Request.decidedBy argument).execute limit files input =
      if IsHelp argument then ⟨0, usage, ""⟩
      else if IsFlag argument then ⟨2, "", "monkey: unknown flag '" ++ argument ++ "'\n"⟩
      else ⟨2, "", "monkey: unexpected argument '" ++ argument ++ "'\n"⟩ := by
  unfold Request.decidedBy
  split
  · rfl
  · split <;> rfl

/-- Without a path the interactive session is started. -/
theorem execute_session (h : Unstopped arguments) (hnone : ∀ argument ∈ arguments, ¬ IsPath argument)
    (files : String → Except ReadError ByteArray) (input : String) :
    (Request.ofArguments arguments).execute limit files input =
      ⟨0, Repl.transcript limit Repl.defaultIntro input, ""⟩ := by
  rw [ofArguments_of_unstopped h]
  exact if_pos (firstPath_eq_empty_iff.2 hnone)

/-- With a path, the program in that file is treated as the flags say. -/
theorem execute_path (h : Unstopped arguments) (hp : IsPath p) (hmem : p ∈ arguments)
    (input : String) : (Request.ofArguments arguments).execute limit files input =
      runFile limit ⟨p, "--ast" ∈ arguments, "--quiet" ∈ arguments⟩ (files p) := by
  rw [ofArguments_of_unstopped h, Options.ofArguments, firstPath_eq h hp hmem]
  exact if_neg hp.ne_empty

/-- With the flag for it, the tree of a program is shown, and the program is not run. -/
theorem execute_tree (h : Unstopped arguments) (hp : IsPath p) (hmem : p ∈ arguments)
    (hast : "--ast" ∈ arguments) {bytes : ByteArray} {source : String} {program : Program}
    (hfile : files p = .ok bytes) (htext : String.fromUTF8? bytes = some source)
    (hparse : parse source = .ok ⟨program, []⟩) (input : String) :
    (Request.ofArguments arguments).execute limit files input = ⟨0, program.render ++ "\n", ""⟩ := by
  rw [execute_path h hp hmem, hfile, runFile, htext]
  simp [hast, treat_of_parse hparse]

end Outcomes

/-- Arguments are read up to the first that decides the matter, and otherwise their order does not
count. The first argument that decides the matter gives the answer, whatever stands behind it, and no
file and no input are read. Without one, what is done is told by the only path, if there is one, and by
which flags there are: without a path it is the interactive session, and with the flag for it a program
that is free of errors is shown and not run. If there are no empty arguments, other arguments that are
a permutation of these and of some flags among them once more are answered in the same way. -/
theorem arguments_are_read_up_to_the_first_that_decides :
    (∀ (arguments : List String) (i : Nat) (argument : String), arguments[i]? = some argument →
      Stops arguments i → (∀ j < i, ¬ Stops arguments j) →
        (∀ rest, Request.ofArguments (arguments.take (i + 1) ++ rest) = .decidedBy argument) ∧
        ∀ limit files input, (Request.ofArguments arguments).execute limit files input =
          if IsHelp argument then ⟨0, usage, ""⟩
          else if IsFlag argument then ⟨2, "", "monkey: unknown flag '" ++ argument ++ "'\n"⟩
          else ⟨2, "", "monkey: unexpected argument '" ++ argument ++ "'\n"⟩) ∧
    (∀ arguments, Unstopped arguments →
      (∀ p q, IsPath p → IsPath q → p ∈ arguments → q ∈ arguments → p = q) ∧
      (∀ arguments', Unstopped arguments' →
        (∀ p, IsPath p → (p ∈ arguments' ↔ p ∈ arguments)) →
        (∀ flag, IsSwitch flag → (flag ∈ arguments' ↔ flag ∈ arguments)) → ∀ limit files input,
          (Request.ofArguments arguments').execute limit files input =
            (Request.ofArguments arguments).execute limit files input) ∧
      ((∀ argument ∈ arguments, ¬ IsPath argument) → ∀ limit files input,
        (Request.ofArguments arguments).execute limit files input =
          ⟨0, Repl.transcript limit Repl.defaultIntro input, ""⟩) ∧
      ∀ (limit : Nat) (p : String) (files : String → Except ReadError ByteArray)
        (bytes : ByteArray) (source : String) (program : Program) (input : String), IsPath p →
        p ∈ arguments → "--ast" ∈ arguments → files p = .ok bytes →
        String.fromUTF8? bytes = some source → parse source = .ok ⟨program, []⟩ →
          (Request.ofArguments arguments).execute limit files input =
            ⟨0, program.render ++ "\n", ""⟩) ∧
    ∀ arguments arguments' flags : List String, "" ∉ arguments →
      (∀ flag ∈ flags, IsSwitch flag ∧ flag ∈ arguments) → arguments'.Perm (flags ++ arguments) →
        (Unstopped arguments' ↔ Unstopped arguments) ∧
        (Unstopped arguments → ∀ limit files input,
          (Request.ofArguments arguments').execute limit files input =
            (Request.ofArguments arguments).execute limit files input) := by
  refine ⟨?_, fun arguments h => ⟨?_, ?_, ?_, ?_⟩, ?_⟩
  · rintro arguments i argument hi ⟨argument', hi', hdecides⟩ hfirst
    obtain rfl : argument' = argument := Option.some.inj (hi'.symm.trans hi)
    have hrequest := ofArguments_of_first hdecides hfirst
    have htake : arguments.take (i + 1) = arguments.take i ++ [argument'] := by
      rw [List.take_add_one, hi]
      rfl
    have hall : ∀ rest, Request.ofArguments (arguments.take (i + 1) ++ rest) =
        .decidedBy argument' := by
      intro rest
      rw [htake, List.append_assoc, List.singleton_append, hrequest]
    refine ⟨hall, fun limit files input => ?_⟩
    have hwhole := hall (arguments.drop (i + 1))
    rw [List.take_append_drop] at hwhole
    rw [hwhole, execute_decidedBy]
  · intro p q hp hq hmem hmem'
    rw [← firstPath_eq h hp hmem, firstPath_eq h hq hmem']
  · intro arguments' h' hpath hswitch limit files input
    rw [ofArguments_congr h h' hpath hswitch]
  · exact fun hnone limit => execute_session h hnone
  · intro limit p files bytes source program input hp hmem hast hfile htext hparse
    exact execute_tree h hp hmem hast hfile htext hparse input
  · intro arguments arguments' flags hempty hflags hperm
    obtain ⟨hiff, hsame⟩ := (rearranges_of_perm hflags hperm).ofArguments_eq hempty
    exact ⟨hiff, fun h limit files input => by rw [hsame h]⟩

/-- A second path, in spite of the flag for help behind it; and the tree of a program whose calls
would not end, with the flags in another order and repeated. -/
theorem arguments_are_read_up_to_the_first_that_decides_of_endless :
    (∀ limit files input,
      (Request.ofArguments ["--quiet", "one.monkey", "two.monkey", "--help"]).execute limit files
        input = ⟨2, "", "monkey: unexpected argument 'two.monkey'\n"⟩) ∧
    ∃ program, parse "var f = fun() \x7b return f(); \x7d; f();" = .ok ⟨program, []⟩ ∧
      ∀ arguments ∈ [["--quiet", "f.monkey", "--ast"], ["--ast", "--quiet", "f.monkey", "--quiet"]],
        ∀ limit input, (Request.ofArguments arguments).execute limit
          (fun _ => .ok "var f = fun() \x7b return f(); \x7d; f();".toUTF8) input =
            ⟨0, program.render ++ "\n", ""⟩ := by
  obtain ⟨hdecided, hunstopped, hrearranged⟩ := arguments_are_read_up_to_the_first_that_decides
  obtain ⟨program, hparse⟩ := exists_of_accepted "var f = fun() \x7b return f(); \x7d; f();"
    (by decide +kernel)
  have hplain : Unstopped ["--quiet", "f.monkey", "--ast"] :=
    (unstopped_iff (by decide)).2 (by decide)
  have hshown : ∀ limit input,
      (Request.ofArguments ["--quiet", "f.monkey", "--ast"]).execute limit
      (fun _ => .ok "var f = fun() \x7b return f(); \x7d; f();".toUTF8) input =
        ⟨0, program.render ++ "\n", ""⟩ := by
    intro limit input
    exact (hunstopped _ hplain).2.2.2 limit "f.monkey" _ _ _ program input ⟨by decide, by decide⟩
      (by decide) (by decide) rfl (fromUTF8?_toUTF8 _) hparse
  refine ⟨fun limit files input => ?_, program, hparse, ?_⟩
  · exact (hdecided ["--quiet", "one.monkey", "two.monkey", "--help"] 2 "two.monkey" rfl (by decide)
      (by decide)).2 limit files input
  · simp only [List.forall_mem_cons, List.not_mem_nil, false_imp_iff, implies_true, and_true]
    refine ⟨hshown, fun limit input => ?_⟩
    exact ((hrearranged ["--quiet", "f.monkey", "--ast"] _ ["--quiet"] (by decide) (by decide)
      (by decide)).2 hplain limit _ input).trans (hshown limit input)

end MonkeyLang.Cli

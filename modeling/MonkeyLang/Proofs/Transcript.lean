import MonkeyLang.Proofs.FrontEnds

/-!
# Sessions answer every line alone

A `Repl.Loop` has one machine and one table of built-in functions for all the lines that it reads,
and whatever a line does stays done. Nevertheless the lines do not see each other.
`Repl.Loop.run_asked` says what the session has written after any number of lines: for each of them
what a new session writes for it. The session stops behind the first line that is a command to stop,
or at the end of the input; `Repl.transcript` is what it has written by then.
-/

namespace MonkeyLang.Repl

/-! ### What is expected of a session -/

/-- The lines of an input. Only a line feed ends a line. -/
def lines : (partialLine : List Char) → List Char → List (List Char)
  | [], [] => []
  | partialLine, [] => [partialLine.reverse]
  | partialLine, c :: cs =>
    if c = '\n' then partialLine.reverse :: lines [] cs else lines (c :: partialLine) cs

/-- The line is a command to stop, up to blanks around it. -/
def Stops (line : String) : Prop := Text.trim line = "exit" ∨ Text.trim line = "EOF"

instance (line : String) : Decidable (Stops line) :=
  inferInstanceAs (Decidable (_ ∨ _))

/-- The lines that a session answers: up to the first command to stop, which the end of the input
is, too. -/
def answered : List String → List String
  | [] => ["EOF"]
  | line :: lines => line :: if Stops line then [] else answered lines

/-- The lines of an input that a session answers. -/
def asked (input : List Char) : List String := answered ((lines [] input).map chomp)

/-- What a new session writes for a line, with the prompt for it. -/
def alone (limit : Nat) (line : String) : String :=
  prompt ++ ((Session.new .initial).answer limit line).1.machine.output

/-! ### One line -/

namespace Session

/-- What is written for a program text does not depend on the session. -/
theorem output_run (session : Session) (limit : Nat) (line : String) :
    (session.run limit line).machine.output =
      session.machine.output ++ ((new .initial).run limit line).machine.output := by
  cases hparse : parse line with
  | error halt => simp [run_of_halt hparse]
  | ok parsed =>
    obtain ⟨program, errors⟩ := parsed
    by_cases herrors : errors = []
    · subst herrors
      simp [run_of_parse hparse, output_evaluate]
    · simp [run_of_errors hparse herrors]

/-- A session at work writes for a line what a new one writes, and stops at the same lines. -/
theorem answer_eq (session : Session) (limit : Nat) (line : String) :
    (session.answer limit line).1.machine.output =
        session.machine.output ++ ((new .initial).answer limit line).1.machine.output ∧
      (session.answer limit line).2 = decide (Stops line) := by
  unfold answer Stops
  dsimp only
  split
  · next hempty => simp [hempty]
  · split
    · next hexit => simp [hexit]
    · next hexit =>
      split
      · next hend => simp [hend]
      · next hend => exact ⟨output_run session limit line, by simp [hexit, hend]⟩

end Session

/-! ### Lines -/

section Lines

variable {cs : List Char}

/-- The lines of an input behind a part of the first one. -/
theorem lines_eq (part : List Char) (cs : List Char) :
    lines part cs = match cs.dropWhile (· != '\n') with
      | [] => if part = [] ∧ cs = [] then [] else [part.reverse ++ cs]
      | _ :: rest => (part.reverse ++ cs.takeWhile (· != '\n')) :: lines [] rest := by
  induction cs generalizing part with
  | nil => cases part <;> simp [lines]
  | cons c cs ih =>
    by_cases hc : c = '\n'
    · subst hc
      simp [lines]
    · simp only [lines, if_neg hc, ih]
      simp [hc]

/-- A line feed at the end of a line is no part of it. -/
theorem chomp_newline (line : List Char) : chomp (line ++ ['\n']) = chomp line := by
  simp [chomp, Text.dropWhileEnd]

theorem stops_end : Stops "EOF" := by decide

/-- The next line is the first one that is asked, and the others are those of the input behind it. -/
theorem asked_eq (cs : List Char) : asked cs =
    (nextLine cs).1 :: if Stops (nextLine cs).1 then [] else asked (nextLine cs).2 := by
  unfold asked nextLine readLine
  rw [lines_eq]
  cases hrest : cs.dropWhile (· != '\n') with
  | nil =>
    have hall : cs.takeWhile (· != '\n') = cs := by
      have happend := List.takeWhile_append_dropWhile (p := (· != '\n')) (l := cs)
      rwa [hrest, List.append_nil] at happend
    cases cs with
    | nil => simp [answered, stops_end]
    | cons c cs => simp [answered, hall, lines]
  | cons c rest =>
    have hc : c = '\n' := by
      have hhead := List.head?_dropWhile_not (· != '\n') cs
      simpa [hrest] using hhead
    subst hc
    simp [answered, chomp_newline]

end Lines

/-! ### All lines -/

namespace Loop

variable {loop : Loop} {limit : Nat}

theorem run_of_stopped (h : loop.stopped) (steps : Nat) : loop.run limit steps = loop := by
  induction steps with
  | zero => rfl
  | succ steps ih => rw [run, step, if_pos h, ih]

/-- A session is finished after so many steps that it has stopped. -/
theorem exists_finish_eq_run (loop : Loop) (limit : Nat) :
    ∃ steps, loop.finish limit = loop.run limit steps ∧ (loop.run limit steps).stopped := by
  fun_induction finish loop limit with
  | case1 loop hstopped => exact ⟨0, rfl, hstopped⟩
  | case2 loop hstopped ih =>
    obtain ⟨steps, hfinish, hstops⟩ := ih
    exact ⟨steps + 1, hfinish, hstops⟩

/-- A step answers the next line as a new session does, and stops at the same lines. -/
theorem step_eq (cs : List Char) (session : Session) (limit : Nat) :
    ∃ session', session'.machine.output = session.machine.output ++ alone limit (nextLine cs).1 ∧
      step ⟨cs, session, false⟩ limit =
        ⟨(nextLine cs).2, session', decide (Stops (nextLine cs).1)⟩ := by
  obtain ⟨houtput, hstop⟩ := (session.write prompt).answer_eq limit (nextLine cs).1
  refine ⟨((session.write prompt).answer limit (nextLine cs).1).1, ?_, ?_⟩
  · rw [houtput, alone, Session.output_write, String.append_assoc]
  · rw [step_of_not_stopped Bool.false_ne_true, hstop]

/-- After some steps, as many of the lines that are asked have been answered, each alone. -/
theorem run_asked (cs : List Char) (session : Session) (limit steps : Nat) :
    (run ⟨cs, session, false⟩ limit steps).session.machine.output =
        session.machine.output ++ String.join (((asked cs).take steps).map (alone limit)) ∧
      ((run ⟨cs, session, false⟩ limit steps).stopped ↔ (asked cs).length ≤ steps) := by
  induction steps generalizing cs session with
  | zero => simp [run, asked_eq cs]
  | succ steps ih =>
    obtain ⟨session', houtput, hstep⟩ := step_eq cs session limit
    rw [run, hstep, asked_eq cs, List.take_succ_cons, List.map_cons, String.join_cons,
      ← String.append_assoc, ← houtput]
    by_cases hstops : Stops (nextLine cs).1
    · have hstopped : Loop.stopped ⟨(nextLine cs).2, session', true⟩ := rfl
      rw [decide_eq_true hstops, run_of_stopped hstopped, if_pos hstops]
      simp
    · rw [decide_eq_false hstops, if_neg hstops, List.length_cons, Nat.succ_le_succ_iff]
      exact ih (nextLine cs).2 session'

/-- A session that is finished has answered all the lines that are asked. -/
theorem finish_asked (cs : List Char) (session : Session) (limit : Nat) :
    (finish ⟨cs, session, false⟩ limit).session.machine.output =
      session.machine.output ++ String.join ((asked cs).map (alone limit)) := by
  obtain ⟨steps, hfinish, hstops⟩ := exists_finish_eq_run ⟨cs, session, false⟩ limit
  obtain ⟨houtput, hstopped⟩ := run_asked cs session limit steps
  rw [hfinish, houtput, List.take_of_length_le (hstopped.1 hstops)]

end Loop

/-- A session writes for its lines what new sessions write for them one by one, and it stops behind
the first command to stop, which the end of the input is, too. This holds however many calls may be
nested and however far a session at work has come, whatever it has answered before; and it holds of
the whole transcript. -/
theorem lines_independent (limit : Nat) (intro input : String) :
    (∀ session steps,
      ((Loop.start intro input session).run limit steps).session.machine.output =
          session.machine.output ++ Loop.opening intro ++
            String.join (((asked input.toList).take steps).map (alone limit)) ∧
        (((Loop.start intro input session).run limit steps).stopped ↔
          (asked input.toList).length ≤ steps)) ∧
      transcript limit intro input =
        Loop.opening intro ++ String.join ((asked input.toList).map (alone limit)) ∧
      ∀ (session : Session) (line : String),
        (session.answer limit line).1.machine.output = session.machine.output ++
            ((Session.new .initial).answer limit line).1.machine.output ∧
          ((session.answer limit line).2 ↔ Stops line) := by
  refine ⟨fun session steps => ?_, ?_, fun session line => ?_⟩
  · exact Loop.run_asked input.toList (session.write (Loop.opening intro)) limit steps
  · rw [transcript, Loop.start, Loop.finish_asked]
    simp
  · obtain ⟨houtput, hstop⟩ := session.answer_eq limit line
    exact ⟨houtput, by rw [hstop, decide_eq_true_iff]⟩

end MonkeyLang.Repl

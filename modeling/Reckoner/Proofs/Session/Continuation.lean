import Reckoner.Proofs.Session.History

/-!
# Sessions one after the other

Each line is answered between two prompts, so what a session shows goes on where it ended when
further lines follow (`Session.run_append`). Between the lines nothing is kept but the records:
after a clearing the session goes on as a new one, and after a leaving it does not go on at all
(`transcript_continuation`).
-/

namespace Reckoner

/-! ### Words of command -/

namespace Command

/-- What a line says, in lower case and without white space around it. -/
def wording (line : String) : String := String.ofList (Text.lowercase (Text.trim line.toList))

theorem ofLine_eq_leave_iff {line : String} :
    ofLine line = .leave ↔ wording line = "quit" ∨ wording line = "exit" := by
  unfold ofLine wording
  split <;> simp_all

end Command

/-! ### Going on -/

namespace Session

variable {s : Session} {line : String}

/-- What a session shows behind its first prompt, for these lines of input. -/
def sequel (s : Session) : List String → String
  | [] => ""
  | line :: lines =>
    match Command.ofLine line with
    | .leave => ""
    | c => (s.answer c).1 ++ (s.answer c).2.run lines

theorem run_eq_prompt_append (s : Session) (lines : List String) :
    s.run lines = prompt ++ s.sequel lines := by
  cases lines with
  | nil => rfl
  | cons line lines =>
    by_cases hleave : Command.ofLine line = .leave
    · simp [run, sequel, hleave]
    · rw [run_cons_of_ne hleave, String.append_assoc, sequel]
      split
      · contradiction
      · rfl

theorem sequel_leave (h : Command.ofLine line = .leave) (lines : List String) :
    s.sequel (line :: lines) = "" := by
  rw [sequel, h]

/-- After a clearing a session goes on as a new one. -/
theorem sequel_clear (h : Command.ofLine line = .clear) (lines : List String) :
    s.sequel (line :: lines) = outputLine "history cleared" ++ run {} lines := by
  rw [sequel, h]
  rfl

/-- What is shown for further lines stands behind what was shown without them. -/
theorem run_append {before : List String} (h : ∀ line ∈ before, Command.ofLine line ≠ .leave)
    (s : Session) (later : List String) :
    s.run (before ++ later) =
      s.run before ++ (s.after (before.map Command.ofLine)).sequel later := by
  induction before generalizing s with
  | nil => exact s.run_eq_prompt_append later
  | cons line before ih =>
    obtain ⟨hline, hbefore⟩ := List.forall_mem_cons.mp h
    rw [List.cons_append, run_cons_of_ne hline, run_cons_of_ne hline, ih hbefore,
      String.append_assoc, String.append_assoc, String.append_assoc]
    rfl

theorem transcript_append {before : List String} (h : ∀ line ∈ before, Command.ofLine line ≠ .leave)
    (later : List String) :
    transcript (before ++ later) =
      transcript before ++ (after {} (before.map Command.ofLine)).sequel later := by
  rw [transcript, transcript, run_append h, String.append_assoc]

end Session

/-! ### Lines of a text -/

/-- The characters behind the first lines of a text. -/
def Text.dropLines : Nat → List Char → List Char
  | 0, cs => cs
  | n + 1, cs => dropLines n (cs.dropWhile (· ≠ '\n')).tail

theorem Text.dropLines_outputLine {line : String} (h : '\n' ∉ line.toList) (n : Nat)
    (cs : List Char) :
    dropLines (n + 1) ((Session.outputLine line).toList ++ cs) = dropLines n cs := by
  have hline : ∀ c ∈ line.toList, decide (c ≠ '\n') = true := by
    intro c hc
    exact decide_eq_true fun hcn => h (hcn ▸ hc)
  rw [dropLines, Session.outputLine, String.toList_append, List.append_assoc,
    List.dropWhile_append_of_pos hline]
  rfl

/-- The greeting is the first two lines of every session. -/
theorem Session.dropLines_transcript (lines : List String) :
    Text.dropLines 2 (transcript lines).toList = (run {} lines).toList := by
  rw [transcript, greeting, String.toList_append, String.toList_append, List.append_assoc,
    Text.dropLines_outputLine (by decide), Text.dropLines_outputLine (by decide), Text.dropLines]

/-- **A session goes on where it ended**: if no line leaves, what is shown for some lines is the
beginning of what is shown when others follow. Leaving at their end shows nothing more, whatever
follows, and after the history is cleared what follows is shown as in a session of its own, without
the two lines of the greeting. -/
theorem transcript_continuation {before : List String}
    (h : ∀ line ∈ before, Command.wording line ≠ "quit" ∧ Command.wording line ≠ "exit")
    (later : List String) :
    (∃ more, Session.transcript (before ++ later) = Session.transcript before ++ more) ∧
    Session.transcript (before ++ ["quit"] ++ later) = Session.transcript before ∧
    Session.transcript (before ++ ["clear"] ++ later) =
      Session.transcript before ++ "history cleared\n" ++
        String.ofList (Text.dropLines 2 (Session.transcript later).toList) := by
  have hstays : ∀ line ∈ before, Command.ofLine line ≠ .leave := by
    intro line hline hleave
    obtain ⟨hquit, hexit⟩ := h line hline
    exact (Command.ofLine_eq_leave_iff.mp hleave).elim hquit hexit
  refine ⟨⟨_, Session.transcript_append hstays later⟩, ?_, ?_⟩
  · have hquit : Command.ofLine "quit" = .leave := by decide +kernel
    rw [List.append_assoc, Session.transcript_append hstays, List.singleton_append,
      Session.sequel_leave hquit, String.append_empty]
  · have hclear : Command.ofLine "clear" = .clear := by decide +kernel
    rw [List.append_assoc, Session.transcript_append hstays, List.singleton_append,
      Session.sequel_clear hclear, Session.dropLines_transcript, String.ofList_toList,
      ← String.append_assoc]
    rfl

/-- Lines that only look like leaving, and what a history shows after them and after a clearing. -/
theorem transcript_continuation_history :
    let before := ["", " History ", "qui t"]
    (∃ more, Session.transcript (before ++ ["history"]) = Session.transcript before ++ more) ∧
      Session.transcript (before ++ ["quit"] ++ ["history"]) = Session.transcript before ∧
      Session.transcript (before ++ ["clear"] ++ ["history"]) =
        Session.transcript before ++ "history cleared\n" ++ "> (no calculations yet)\n> " := by
  intro before
  have hstays : ∀ line ∈ before,
      Command.wording line ≠ "quit" ∧ Command.wording line ≠ "exit" := by decide +kernel
  obtain ⟨hbegins, hquit, hclear⟩ := transcript_continuation hstays ["history"]
  have hnew : String.ofList (Text.dropLines 2 (Session.transcript ["history"]).toList) =
      "> (no calculations yet)\n> " := by decide +kernel
  refine ⟨hbegins, hquit, ?_⟩
  rw [hclear, hnew]

end Reckoner

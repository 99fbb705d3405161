import Mathlib.Data.List.DropRight
import Mathlib.Data.List.Induction
import Reckoner.Session

/-!
# The history of a session

A session is a talk: one exchange of a command and its reply for each line up to the first
that leaves (`Session.talk`). What a session shows is its talk after the greeting
(`run_eq`), and the records that it keeps are the replies that showed a result since the
history was last cleared (`records_after`). So a history lists exactly these, and what
shows no result and clears nothing can be left out of a session without a trace
(`transcript_history`).
-/

namespace Reckoner

/-! ### Commands -/

namespace Command

/-- Whether the command calculates a result. -/
def hasResult : Command → Bool
  | .calculate text => (Reckoner.calculate text).isOk
  | _ => false

/-- A command that shows no result and does not clear the history. -/
inductive Passive : Command → Prop
  | nothing : Passive .nothing
  | history : Passive .history
  | failing {text : String} {r : Refusal} (refused : Reckoner.calculate text = .error r) :
      Passive (.calculate text)

theorem Passive.ne_leave {c : Command} (h : c.Passive) : c ≠ .leave := by
  cases h <;> simp

end Command

namespace Session

variable {s : Session} {c : Command}

theorem answer_of_result {text : String} {x : Float} (h : Reckoner.calculate text = .ok x) :
    s.answer (.calculate text) =
      (outputLine (recordText text x), ⟨s.records ++ [recordText text x]⟩) := by
  rw [answer, h]

theorem answer_of_refused {text : String} {r : Refusal} (h : Reckoner.calculate text = .error r) :
    s.answer (.calculate text) = (outputLine ("error: " ++ r.explanation), s) := by
  rw [answer, h]

/-- A passive command leaves the session as it is. -/
theorem answer_of_passive (h : c.Passive) : (s.answer c).2 = s := by
  cases h with
  | nothing => rfl
  | history => rfl
  | failing refused => rw [answer_of_refused refused]

/-- A command clears the records, or adds its reply to them if that shows a result. -/
theorem records_answer (s : Session) (c : Command) :
    (s.answer c).2.records.map outputLine =
      if c = .clear then []
      else s.records.map outputLine ++ if c.hasResult then [(s.answer c).1] else [] := by
  cases c with
  | calculate text =>
    rw [if_neg (by simp), Command.hasResult]
    cases h : Reckoner.calculate text with
    | error r =>
      rw [answer_of_refused h]
      exact (List.append_nil _).symm
    | ok x =>
      rw [answer_of_result h]
      exact List.map_append
  | clear => rfl
  | _ => exact (List.append_nil _).symm

/-! ### Exchanges -/

/-- A command and the reply to it. -/
structure Exchange where
  command : Command
  reply : String

/-- The commands of the lines up to the first that leaves. -/
def heard (lines : List String) : List Command := (lines.map Command.ofLine).takeWhile (· ≠ .leave)

/-- The exchanges that follow from a session for some commands. -/
def exchanges (s : Session) : List Command → List Exchange
  | [] => []
  | c :: cs => ⟨c, (s.answer c).1⟩ :: (s.answer c).2.exchanges cs

/-- The session after some commands. -/
def after (s : Session) (cs : List Command) : Session := cs.foldl (fun s c => (s.answer c).2) s

/-- The exchanges of the whole session with these lines of input. -/
def talk (lines : List String) : List Exchange := exchanges {} (heard lines)

@[simp] theorem exchanges_nil : s.exchanges [] = [] := rfl

@[simp] theorem exchanges_cons {cs : List Command} :
    s.exchanges (c :: cs) = ⟨c, (s.answer c).1⟩ :: (s.answer c).2.exchanges cs := rfl

@[simp] theorem after_cons {cs : List Command} : s.after (c :: cs) = (s.answer c).2.after cs := rfl

theorem after_append (s : Session) (cs ds : List Command) :
    s.after (cs ++ ds) = (s.after cs).after ds := List.foldl_append

theorem exchanges_append (s : Session) (cs ds : List Command) :
    s.exchanges (cs ++ ds) = s.exchanges cs ++ (s.after cs).exchanges ds := by
  induction cs generalizing s with
  | nil => rfl
  | cons c cs ih => simp [ih]

theorem map_command_exchanges (s : Session) (cs : List Command) :
    (s.exchanges cs).map (·.command) = cs := by
  induction cs generalizing s with
  | nil => rfl
  | cons c cs ih => simp [ih]

/-- Each reply is the answer of the session after the commands before it. -/
theorem exchanges_eq_append_cons {cs : List Command} {past rest : List Exchange} {x : Exchange}
    (h : s.exchanges cs = past ++ x :: rest) :
    ∃ before after, cs = before ++ x.command :: after ∧ past = s.exchanges before ∧
      x.reply = ((s.after before).answer x.command).1 := by
  induction past generalizing s cs with
  | nil =>
    cases cs with
    | nil => cases h
    | cons c cs =>
      obtain ⟨rfl, -⟩ := List.cons.inj h
      exact ⟨[], cs, rfl, rfl, rfl⟩
  | cons y past ih =>
    cases cs with
    | nil => cases h
    | cons c cs =>
      obtain ⟨rfl, hrest⟩ := List.cons.inj h
      obtain ⟨before, after, rfl, rfl, hreply⟩ := ih hrest
      exact ⟨c :: before, after, rfl, rfl, hreply⟩

theorem run_cons_of_ne {line : String} {lines : List String} (h : Command.ofLine line ≠ .leave) :
    s.run (line :: lines) =
      prompt ++ (s.answer (Command.ofLine line)).1 ++
        (s.answer (Command.ofLine line)).2.run lines := by
  rw [run]
  split
  · contradiction
  · rfl

/-- What is shown is the talk, a prompt before each reply and one at the end. -/
theorem run_eq (s : Session) (lines : List String) :
    s.run lines =
      String.join ((s.exchanges (heard lines)).map fun x => prompt ++ x.reply) ++ prompt := by
  induction lines generalizing s with
  | nil => simp [run, heard]
  | cons line lines ih =>
    by_cases hleave : Command.ofLine line = .leave
    · simp [run, heard, hleave]
    · have hheard : heard (line :: lines) = Command.ofLine line :: heard lines := by
        simp [heard, hleave]
      rw [run_cons_of_ne hleave, hheard, exchanges_cons, List.map_cons, String.join_cons, ih,
        ← String.append_assoc]

/-! ### The history -/

/-- The replies that showed a result since the history was last cleared. -/
def results (past : List Exchange) : List String :=
  ((past.rtakeWhile (·.command ≠ .clear)).filter (·.command.hasResult)).map (·.reply)

/-- The lines of a history, each behind its number from one on. -/
def historyOf (lines : List String) : String :=
  if lines = [] then outputLine "(no calculations yet)"
  else String.join ((lines.zipIdx 1).map fun (line, n) =>
    String.ofList ((digits n).leftpad 3 ' ') ++ ". " ++ line)

theorem results_append_singleton (past : List Exchange) (x : Exchange) :
    results (past ++ [x]) =
      if x.command = .clear then []
      else results past ++ if x.command.hasResult then [x.reply] else [] := by
  unfold results
  rw [List.rtakeWhile_concat]
  by_cases hclear : x.command = .clear
  · simp [hclear]
  · by_cases hresult : x.command.hasResult = true <;> simp [hclear, hresult]

/-- The session keeps the results that it has shown since it was last cleared. -/
theorem records_after (cs : List Command) :
    (after {} cs).records.map outputLine = results (exchanges {} cs) := by
  -- from the end, since a clearing forgets what was before it
  induction cs using List.reverseRecOn with
  | nil => rfl
  | append_singleton cs c ih =>
    rw [after_append, exchanges_append, exchanges_cons, exchanges_nil, results_append_singleton,
      ← ih]
    exact records_answer _ c

theorem numbered_eq (n : Nat) (records : List String) :
    numbered n records =
      String.join (((records.map outputLine).zipIdx n).map fun (line, n) =>
        String.ofList ((digits n).leftpad 3 ' ') ++ ". " ++ line) := by
  induction records generalizing n with
  | nil => rfl
  | cons r records ih => simp [numbered, ih, outputLine, String.append_assoc]

theorem historyText_eq (s : Session) : s.historyText = historyOf (s.records.map outputLine) := by
  unfold historyText historyOf
  by_cases h : s.records = []
  · rw [if_pos h, h]
    rfl
  · rw [if_neg h, if_neg (by simpa using h), numbered_eq]

theorem heard_append {before rest : List String} (h : ∀ line ∈ before, Command.ofLine line ≠ .leave) :
    heard (before ++ rest) = heard before ++ heard rest := by
  have hall : ∀ c ∈ before.map Command.ofLine, decide (c ≠ .leave) = true := by
    simpa using h
  unfold heard
  rw [List.map_append, List.takeWhile_append_of_pos hall, List.takeWhile_eq_self_iff.mpr hall]

/-- A passive line can be left out: what is said before it and after it stays the same. -/
theorem talk_passive {before after : List String} {line : String}
    (h : ∀ line ∈ before, Command.ofLine line ≠ .leave) (hline : (Command.ofLine line).Passive) :
    ∃ reply later, talk (before ++ line :: after) =
        talk before ++ ⟨Command.ofLine line, reply⟩ :: later ∧
      talk (before ++ after) = talk before ++ later := by
  have hheard : heard (line :: after) = Command.ofLine line :: heard after := by
    simp [heard, hline.ne_leave]
  let s := Session.after {} (heard before)
  refine ⟨(s.answer (Command.ofLine line)).1, s.exchanges (heard after), ?_, ?_⟩
  · rw [talk, heard_append h, hheard, exchanges_append, exchanges_cons, answer_of_passive hline]
    rfl
  · rw [talk, heard_append h, exchanges_append]
    rfl

end Session

/-- **The history lists the results since it was last cleared**: what a session shows is one reply
for each line up to the first that leaves. A reply with a result is the text and the result, the
reply to a history lists these replies since the history was last cleared, in order and numbered
from one on, and an empty line, a failing calculation or a history changes no later reply. -/
theorem transcript_history (lines : List String) :
    Session.transcript lines =
      Session.greeting ++
        String.join ((Session.talk lines).map fun x => Session.prompt ++ x.reply) ++
        Session.prompt ∧
    (Session.talk lines).map (·.command) =
      (lines.map Command.ofLine).takeWhile (· ≠ .leave) ∧
    (∀ past reply rest, Session.talk lines = past ++ ⟨.history, reply⟩ :: rest →
      reply = Session.historyOf (Session.results past)) ∧
    (∀ past text x reply rest, Session.talk lines = past ++ ⟨.calculate text, reply⟩ :: rest →
      calculate text = .ok x → reply = text ++ " = " ++ resultText x ++ "\n") ∧
    ∀ before line after, lines = before ++ line :: after →
      (∀ l ∈ before, Command.ofLine l ≠ .leave) → (Command.ofLine line).Passive →
      ∃ reply later,
        Session.talk lines = Session.talk before ++ ⟨Command.ofLine line, reply⟩ :: later ∧
        Session.talk (before ++ after) = Session.talk before ++ later := by
  refine ⟨?_, Session.map_command_exchanges _ _, ?_, ?_, ?_⟩
  · rw [Session.transcript, Session.run_eq, ← String.append_assoc]
    rfl
  · intro past reply rest h
    obtain ⟨before, -, -, rfl, hreply⟩ := Session.exchanges_eq_append_cons h
    rw [← Session.records_after, ← Session.historyText_eq]
    exact hreply
  · intro past text x reply rest h hx
    obtain ⟨before, -, -, -, hreply⟩ := Session.exchanges_eq_append_cons h
    rw [Session.answer_of_result hx] at hreply
    exact hreply
  · rintro before line after rfl hbefore hline
    exact Session.talk_passive hbefore hline

/-- A constant before and after the history is cleared, and an unknown name that leaves no trace. -/
theorem transcript_history_cleared :
    let before := ["pi", "clear", " PI"]
    let after := ["history", "quit", "pi"]
    let past : List Session.Exchange :=
      [⟨.calculate "pi", "pi = 3.1415927\n"⟩, ⟨.clear, "history cleared\n"⟩,
        ⟨.calculate "pi", "pi = 3.1415927\n"⟩]
    let failed : Session.Exchange := ⟨.calculate "x", "error: name not allowed: x\n"⟩
    let listed : Session.Exchange := ⟨.history, "  1. pi = 3.1415927\n"⟩
    Session.talk (before ++ "x" :: after) = past ++ [failed, listed] ∧
      Session.talk (before ++ after) = past ++ [listed] := by
  intro before after past failed listed
  let commands : List Command := [.calculate "pi", .clear, .calculate "pi", .calculate "x"]
  have hpi : calculate "pi" = .ok Constant.pi.value := by
    have hparse : Policy.parse {} "pi" = .ok (.name "pi") := by with_unfolding_all rfl
    rw [calculate, Policy.evaluate, hparse]
    rfl
  have hx : calculate "x" = .error (.unknownName "x") := by
    have hparse : Policy.parse {} "x" = .ok (.name "x") := by with_unfolding_all rfl
    rw [calculate, Policy.evaluate, hparse]
    rfl
  have hshown : resultText Constant.pi.value = "3.1415927" := by decide +kernel
  have hheard : Session.heard (before ++ "x" :: after) = commands ++ [.history] := by
    decide +kernel
  have hpast : Session.exchanges {} commands = past ++ [failed] := by
    simp only [commands, Session.exchanges_cons, Session.exchanges_nil,
      Session.answer_of_result hpi, Session.answer_of_refused hx, Session.recordText, hshown]
    rfl
  obtain ⟨-, -, hhistory, -, hpassive⟩ := transcript_history (before ++ "x" :: after)
  have htalk : Session.talk (before ++ "x" :: after) = past ++ [failed, listed] := by
    have hreplied : Session.talk (before ++ "x" :: after) =
        (past ++ [failed]) ++ [⟨.history, ((Session.after {} commands).answer .history).1⟩] := by
      rw [Session.talk, hheard, Session.exchanges_append, hpast]
      rfl
    have hresults : Session.results (past ++ [failed]) = ["pi = 3.1415927\n"] := by
      simp [Session.results, past, failed, List.rtakeWhile, Command.hasResult, hpi, hx,
        Except.isOk, Except.toBool]
    have hlisted : Session.historyOf ["pi = 3.1415927\n"] = listed.reply := by decide +kernel
    rw [hreplied, hhistory _ _ _ hreplied, hresults, hlisted, List.append_assoc]
    rfl
  refine ⟨htalk, ?_⟩
  have hbefore : ∀ l ∈ before, Command.ofLine l ≠ .leave := by decide +kernel
  have hfailing : Command.ofLine "x" = .calculate "x" := by decide +kernel
  obtain ⟨reply, later, hwith, hwithout⟩ :=
    hpassive before "x" after rfl hbefore (hfailing ▸ .failing hx)
  have hlength : past.length = (Session.talk before).length := by
    have hcount := congrArg List.length (transcript_history before).2.1
    rw [List.length_map] at hcount
    rw [hcount]
    decide +kernel
  rw [htalk] at hwith
  obtain ⟨hsame, hrest⟩ := List.append_inj hwith hlength
  obtain ⟨-, rfl⟩ := List.cons.inj hrest
  rw [hwithout, hsame]

end Reckoner

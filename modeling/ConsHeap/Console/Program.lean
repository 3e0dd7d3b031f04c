import ConsHeap.Console.Session
import ConsHeap.Sizing
import ConsHeap.Text.Lines

/-!
# The program

The program runs the commands of a file, or else those of its standard input.

* `sizing`: the settings of the environment, overridden by the flags.
* `reply`: what is shown for one line of standard input.
* `runFile`: the commands of a file, up to the first that fails.
* `runInput`: the commands of standard input, past all errors.
-/

namespace ConsHeap.Console

/-- The values given to the flags. -/
structure Flags where
  cellsPerPage : Option String
  rootsPerPage : Option String
  pageLimit : Option String

/-- What a run of the program leaves behind. -/
structure Outcome where
  exit : Nat
  stdout : String
  stderr : String

/-- The value of a flag, which has to be a positive number. -/
def flag (name : String) (value : Option String) : Except Reason (Option Nat) :=
  match value with
  | none => .ok none
  | some text =>
    match Sizing.positive? text with
    | some n => .ok (some n)
    | none => .error (.command s!"--{name} expects a positive integer")

/-- The settings of the environment, overridden by the flags. -/
def sizing (env : Environment) (flags : Flags) : Except Reason Sizing := do
  let base := Sizing.ofEnvironment env
  let cells ← flag "cells-per-page" flags.cellsPerPage
  let roots ← flag "roots-per-page" flags.rootsPerPage
  let limit ← flag "page-limit" flags.pageLimit
  return ⟨cells.getD base.cellsPerPage, roots.getD base.rootsPerPage, limit.or base.pageLimit⟩

/-- How the program ends when its flags are wrong. -/
def badFlags (r : Reason) : Outcome := ⟨2, "", r.message ++ "\n"⟩

/-- How the program ends after `stdout` was written. -/
def terminated (stdout : String) (t : Trouble) : Outcome :=
  ⟨1, stdout, s!"Terminated: {t.message}\n"⟩

/-- How the program ends at a fault. -/
def broken (stdout : String) (f : Fault) : Outcome := ⟨101, stdout, f.message ++ "\n"⟩

/-- Run the lines of a file, of which `number` have been run and `out` has been written. -/
def runLines (number : Nat) (out : String) : List String → Session → Outcome
  | [], _ => ⟨0, out, ""⟩
  | line :: rest, session =>
    match Session.run line session with
    | .ok none session => runLines (number + 1) out rest session
    | .ok (some text) session => runLines (number + 1) (out ++ text ++ "\n") rest session
    | .error (.error r) _ => terminated out ⟨r, some (number + 1)⟩
    | .error (.fault f) _ => broken out f

/-- The text of a missing file. -/
def missingFile : String := "No such file or directory (os error 2)"

/-- Run the commands of a file, given its bytes or why it cannot be read. -/
def runFile (sizing : Sizing) (content : Except String ByteArray) : Outcome :=
  match content with
  | .error text => terminated "" ⟨.io text, none⟩
  | .ok bytes =>
    match String.fromUTF8? bytes with
    | none => terminated "" ⟨.io "stream did not contain valid UTF-8", none⟩
    | some text =>
      runLines 0 "" ((Text.linesOf text.toList).map String.ofList) (.new sizing)

/-- What is shown for one line of standard input, or the fault at which the program ends. -/
def reply (line : String) (session : Session) : Except Fault (Option String) × Session :=
  match Session.run line session with
  | .ok text session => (.ok text, session)
  | .error (.error r) session => (.ok (some s!"error: {r.message}"), session)
  | .error (.fault f) session => (.error f, session)

/-- Run the lines of standard input, after `out` has been written. -/
def runInputLines (out : String) : List String → Session → Outcome
  | [], _ => ⟨0, out, ""⟩
  | line :: rest, session =>
    match reply line session with
    | (.ok none, session) => runInputLines out rest session
    | (.ok (some text), session) => runInputLines (out ++ text ++ "\n") rest session
    | (.error f, _) => broken out f

/-- Run the commands of standard input. -/
def runInput (sizing : Sizing) (text : String) : Outcome :=
  runInputLines "" ((Text.linesOf text.toList).map String.ofList) (.new sizing)

/-- What the commands come from. -/
inductive Source where
  | file (content : Except String ByteArray)
  | input (text : String)

/-- Run the program. The flags are checked before any command is read. -/
def run (env : Environment) (flags : Flags) (source : Source) : Outcome :=
  match sizing env flags with
  | .error r => badFlags r
  | .ok sizing =>
    match source with
    | .file content => runFile sizing content
    | .input text => runInput sizing text

end ConsHeap.Console

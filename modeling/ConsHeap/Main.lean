import ConsHeap.Console.Arguments

/-!
# Command line

The outer layer: it reads arguments, settings, files and lines, and writes what the library says.
-/

namespace ConsHeap.Console

/-- A setting of the environment. -/
def readSetting (name : String) : IO (Option ByteArray) := do
  return (← IO.getEnv name).map String.toUTF8

/-- The settings of the environment. -/
def readEnvironment : IO Environment := do
  return ⟨← readSetting "TRICOLOR_CELLS_PER_PAGE", ← readSetting "TRICOLOR_ROOTS_PER_PAGE",
    ← readSetting "TRICOLOR_PAGE_LIMIT"⟩

/-- The bytes of a file, or why it cannot be read. -/
def readContent (name : String) : IO (Except String ByteArray) := do
  try
    return .ok (← IO.FS.readBinFile name)
  catch
    | .noFileOrDirectory .. => return .error missingFile
    | e => return .error e.toString

/-- Write what a run leaves behind. Its exit code is returned. -/
def writeOutcome (o : Outcome) : IO UInt32 := do
  (← IO.getStdout).putStr o.stdout
  (← IO.getStderr).putStr o.stderr
  return o.exit.toUInt32

/-- Answer the lines of standard input one by one. -/
partial def answerLines (input output : IO.FS.Stream) (session : Session) : IO UInt32 := do
  if ← input.isTty then
    output.putStr "> "
    output.flush
  let line ← input.getLine
  if line.isEmpty then return 0
  match reply line session with
  | (.ok none, session) => answerLines input output session
  | (.ok (some text), session) =>
    output.putStrLn text
    output.flush
    answerLines input output session
  | (.error f, _) => writeOutcome (broken "" f)

/-- Run the program with the words after its name. -/
def runProgram (words : List String) : IO UInt32 := do
  match Arguments.parse words with
  | .error r => writeOutcome (badFlags r)
  | .ok arguments =>
    match arguments.file, sizing (← readEnvironment) arguments.flags with
    | _, .error r => writeOutcome (badFlags r)
    | some name, .ok sizing => writeOutcome (runFile sizing (← readContent name))
    | none, .ok sizing => answerLines (← IO.getStdin) (← IO.getStdout) (.new sizing)

end ConsHeap.Console

def main (words : List String) : IO UInt32 := ConsHeap.Console.runProgram words

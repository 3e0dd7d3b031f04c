import ConsHeap.Console.Program

/-!
# Arguments of the program

* `Arguments.parse`: the flags and the file name among the words after the program's name. A flag
  and its value are one word with an equals sign between them, or two words.
-/

namespace ConsHeap.Console

/-- The flags and the command file, if one is named. -/
structure Arguments where
  flags : Flags
  file : Option String

namespace Arguments

/-- No flags and no file. -/
def empty : Arguments := ⟨⟨none, none, none⟩, none⟩

/-- Set a flag by its name. -/
def setFlag (a : Arguments) (name value : String) : Except Reason Arguments :=
  if name = "--cells-per-page" then .ok { a with flags.cellsPerPage := some value }
  else if name = "--roots-per-page" then .ok { a with flags.rootsPerPage := some value }
  else if name = "--page-limit" then .ok { a with flags.pageLimit := some value }
  else .error (.command s!"unexpected argument '{name}'")

/-- The name and the value in a word with an equals sign. -/
def splitFlag (word : List Char) : Option (String × String) :=
  match word.dropWhile (· ≠ '=') with
  | [] => none
  | _ :: value => some (String.ofList (word.takeWhile (· ≠ '=')), String.ofList value)

/-- Add words to the arguments. -/
def parseFrom (a : Arguments) : List String → Except Reason Arguments
  | [] => .ok a
  | word :: rest =>
    if word.toList.take 2 ≠ ['-', '-'] then
      if a.file.isSome then .error (.command s!"unexpected argument '{word}'")
      else parseFrom { a with file := some word } rest
    else match splitFlag word.toList, rest with
      | some (name, value), rest => do parseFrom (← a.setFlag name value) rest
      | none, value :: rest => do parseFrom (← a.setFlag word value) rest
      | none, [] => .error (.command s!"'{word}' expects a value")

/-- The flags and the file name among the words. -/
def parse (words : List String) : Except Reason Arguments := parseFrom empty words

end Arguments

end ConsHeap.Console

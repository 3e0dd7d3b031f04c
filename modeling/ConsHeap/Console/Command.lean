import ConsHeap.Cell
import ConsHeap.Console.Trouble
import ConsHeap.Operand
import ConsHeap.Text.Blank

/-!
# Command lines

* `Command`: what a line may ask for.
* `Command.parse`: reads a line. A blank line and a comment ask for nothing.
-/

namespace ConsHeap.Console

/-- What a line may ask for. -/
inductive Command where
  | cons (name : Option String) (car cdr : Operand)
  | root (name : String)
  | unroot (name : String)
  | setChild (side : Side) (target : String) (x : Operand)
  | text (name content : String)
  | scan (budget : Nat)
  | sweep
  | collect
  | stats
  | check
  | color (name : String)
  | refs (name : String)
  | print (name : String)
  | help

/-- A word in the place of a value: nil, a truth value, an integer, or else a name. -/
def operandOf (word : String) : Operand :=
  if word = "nil" then .literal .nil
  else if word = "#t" then .literal (.boolean true)
  else if word = "#f" then .literal (.boolean false)
  else match Text.integer? word.toList with
    | some n => .literal (.integer n)
    | none => .named word

namespace Command

/-- The number of cells that a word allows to scan. -/
def budgetOf (word : String) : Except Reason Nat :=
  match Text.natural? word.toList with
  | some n => .ok n
  | none => .error (.command "scan budget must be a non-negative integer")

/-- The command that a line has in its words, if there is one. -/
def ofWords? : List String → Option (Except Reason Command)
  | ["cons"] => some (.ok (.cons none (.literal .nil) (.literal .nil)))
  | ["cons", name] => some (.ok (.cons name (.literal .nil) (.literal .nil)))
  | ["cons", name, car] => some (.ok (.cons name (operandOf car) (.literal .nil)))
  | ["cons", name, car, cdr] => some (.ok (.cons name (operandOf car) (operandOf cdr)))
  | ["root", name] => some (.ok (.root name))
  | ["unroot", name] => some (.ok (.unroot name))
  | ["setcar", target, x] => some (.ok (.setChild .car target (operandOf x)))
  | ["setcdr", target, x] => some (.ok (.setChild .cdr target (operandOf x)))
  | "str" :: name :: word :: more =>
    some (.ok (.text name (" ".intercalate (word :: more))))
  | ["scan"] => some (.ok (.scan 1))
  | ["scan", word] => some (scan <$> budgetOf word)
  | ["sweep"] => some (.ok .sweep)
  | ["collect"] => some (.ok .collect)
  | ["stats"] => some (.ok .stats)
  | ["check"] => some (.ok .check)
  | ["color", name] => some (.ok (.color name))
  | ["refs", name] => some (.ok (.refs name))
  | ["print", name] => some (.ok (.print name))
  | ["help"] => some (.ok .help)
  | _ => none

/-- Read a line. Nothing is asked for when it is blank or starts with a semicolon. -/
def parse (line : String) : Except Reason (Option Command) :=
  let text := Text.trim line.toList
  if text.isEmpty ∨ text.head? = some ';' then .ok none
  else match ofWords? ((Text.words text).map String.ofList) with
    | some command => some <$> command
    | none => .error (.command ("cannot parse '" ++ String.ofList text ++ "', try 'help'"))

end Command

/-- What the help command shows. -/
def help : String :=
  "cons [name [car [cdr]]]  allocate a white cons, optionally binding it\n" ++
  "root name                root a cons, or add to its root count\n" ++
  "unroot name              release one root reference\n" ++
  "setcar a b               store b into the car of a\n" ++
  "setcdr a b               store b into the cdr of a\n" ++
  "str name text            bind a new text object\n" ++
  "scan [n]                 blacken up to n grey cells (default 1)\n" ++
  "sweep                    reclaim white cells once scanning is done\n" ++
  "collect                  scan everything, then sweep\n" ++
  "stats                    show zone and table occupancy\n" ++
  "check                    verify heap invariants\n" ++
  "color name               show the color of a cons\n" ++
  "refs name                show a root count or object reference count\n" ++
  "print name               print a value in list notation\n" ++
  "help                     this text\n" ++
  "\n" ++
  "Operands are integers, nil, #t, #f or bound names. Names are not roots."

end ConsHeap.Console

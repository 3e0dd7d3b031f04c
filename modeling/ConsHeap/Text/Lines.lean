/-!
# Lines

* `linesOf`: the lines of a text, each without the line feed that ends it, or the carriage return
  and line feed. A text that ends in a line feed has no empty line after it.
-/

namespace ConsHeap.Text

/-- The lines of a text. What follows the last line feed is a line unless it is empty. -/
def linesOf : List Char → List (List Char)
  | [] => []
  | c :: cs =>
    if c = '\n' then [] :: linesOf cs
    else if c = '\r' ∧ cs.head? = some '\n' then linesOf cs
    else match linesOf cs with
      | [] => [[c]]
      | line :: rest => (c :: line) :: rest

end ConsHeap.Text

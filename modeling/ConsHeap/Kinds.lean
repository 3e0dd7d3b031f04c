import ConsHeap.Failure
import ConsHeap.Value

/-!
# Kinds of objects

Each heap knows a name and a finalizer for some of the object tags.

* `Kinds.standard`: the three kinds that every heap starts with.
* `Kinds.register`: adds a kind or takes the place of one.
* `Kinds.find?`: the kind of a tag.
* `Kinds.name`: a name for every tag.
-/

namespace ConsHeap

/-- What is known of the objects of one tag. -/
structure Kind where
  name : String
  finalizer : Option Finalizer
  deriving DecidableEq, Inhabited

/-- The kinds of a heap, the newest first. -/
structure Kinds where
  entries : List (Tag × Kind)
  deriving Inhabited

namespace Kinds

/-- Texts, symbols and closures, none with a finalizer. -/
def standard : Kinds :=
  ⟨[(.text, ⟨"text", none⟩), (.symbol, ⟨"symbol", none⟩), (.closure, ⟨"closure", none⟩)]⟩

/-- The kind of a tag, if it has one. -/
def find? (kinds : Kinds) (tag : Tag) : Option Kind := kinds.entries.lookup tag

/-- The finalizer that an object of the tag gets. -/
def finalizer (kinds : Kinds) (tag : Tag) : Option Finalizer :=
  (kinds.find? tag).bind Kind.finalizer

/-- Gives an object tag a kind, in place of the one it may have. -/
def register (kinds : Kinds) (tag : Tag) (kind : Kind) : Except HeapError Kinds := do
  let tag ← tag.asObject
  return ⟨(tag, kind) :: kinds.entries⟩

/-- The name of a tag, whatever its family. -/
def name (kinds : Kinds) (tag : Tag) : String :=
  if tag = .nil then "nil"
  else if tag = .integer then "integer"
  else if tag = .character then "character"
  else if tag = .boolean then "boolean"
  else if tag.family = some .cons then "cons"
  else match kinds.find? tag with
    | some kind => kind.name
    | none => "unknown"

end Kinds

end ConsHeap

import ConsHeap.Handle
import ConsHeap.Tag
import ConsHeap.Text.Quoted

/-!
# Values

A value is an atom, an object or the handle of a cons. The body of an object never changes once
the object is made, so a value contains the bodies of its objects, and a body can contain only
values that were there before it. The handle of a cons owns nothing.

* `Body`: what an object holds, over any type of held values.
* `Header`: which object it is, its tag, and what is done when it dies.
* `Value.handles`: the cons handles in a value, at any depth of closures.
* `Value.same`: identity. Two objects with equal bodies are still two objects.
* `Value.shown`: the text of a single value.
-/

namespace ConsHeap

/-- What an object holds. -/
inductive Body (α : Type) where
  | text (s : String)
  | symbol (s : String)
  | closure (arity : UInt8) (code : List UInt8) (captured : List α)
  | bytes (bytes : List UInt8)
  deriving Inhabited

/-- What is done with an object as it dies, before the values it holds are released. A `note` is
written down; with `wipe` a first note is written, the body is emptied, and a second one is
written. -/
inductive Finalizer where
  | note
  | wipe
  deriving DecidableEq

/-- What an object is apart from its body. -/
structure Header where
  id : Nat
  tag : Tag
  finalizer : Option Finalizer
  deriving DecidableEq, Inhabited

/-- A tagged value. -/
inductive Value where
  | nil
  | integer (n : Int64)
  | character (c : Char)
  | boolean (b : Bool)
  | object (header : Header) (body : Body Value)
  | cons (tag : Tag) (handle : Handle)
  deriving Inhabited

namespace Body

variable {α : Type}

/-- The values a body holds. -/
def values : Body α → List α
  | closure _ _ captured => captured
  | _ => []

/-- A body with nothing left in it. A closure keeps its code, but holds no values. -/
def emptied : Body α → Body α
  | text _ => text ""
  | symbol _ => symbol ""
  | closure arity code _ => closure arity code []
  | bytes _ => bytes []

/-- The text of a text or symbol. -/
def string? : Body α → Option String
  | text s | symbol s => some s
  | _ => none

/-- The bytes of a byte body or the code of a closure. -/
def bytes? : Body α → Option (List UInt8)
  | closure _ code _ => some code
  | bytes b => some b
  | _ => none

/-- What a finalizer writes down of a body. -/
def summary : Body α → String
  | text s => "text:" ++ s
  | symbol s => "symbol:" ++ s
  | closure arity code captured => s!"closure:{arity.toNat}/{code.length}/{captured.length}"
  | bytes b => "opaque:[" ++ ", ".intercalate (b.map fun x => toString x.toNat) ++ "]"

/-- The body with every held value exchanged, in order. -/
def mapM {m : Type → Type} [Monad m] {β : Type} (f : α → m β) : Body α → m (Body β)
  | text s => pure (text s)
  | symbol s => pure (symbol s)
  | closure arity code captured => closure arity code <$> captured.mapM f
  | bytes b => pure (bytes b)

end Body

/-- An object: its header and its body. -/
structure Object where
  header : Header
  body : Body Value
  deriving Inhabited

/-- An object as a value. -/
def Object.value (o : Object) : Value := .object o.header o.body

namespace Value

/-- The tag a value carries. -/
def tag : Value → Tag
  | nil => .nil
  | integer _ => .integer
  | character _ => .character
  | boolean _ => .boolean
  | object header _ => header.tag
  | cons tag _ => tag

/-- Holds of a cons. -/
def isCons : Value → Bool
  | cons .. => true
  | _ => false

/-- The handle of a cons. -/
def handle? : Value → Option Handle
  | cons _ handle => some handle
  | _ => none

/-- The number in an integer. -/
def integer? : Value → Option Int64
  | integer n => some n
  | _ => none

/-- The character in a character value. -/
def character? : Value → Option Char
  | character c => some c
  | _ => none

/-- The truth value in a boolean. -/
def boolean? : Value → Option Bool
  | boolean b => some b
  | _ => none

/-- Holds of nil. -/
def isNil : Value → Bool
  | nil => true
  | _ => false

/-- The object in a value. -/
def object? : Value → Option Object
  | object header body => some ⟨header, body⟩
  | _ => none

mutual

/-- The cons handles in a value, left to right, at any depth of closures. -/
def handles : Value → List Handle
  | cons _ handle => [handle]
  | object _ body => handlesIn body
  | _ => []

/-- The cons handles in a body. -/
def handlesIn : Body Value → List Handle
  | .closure _ _ captured => handlesOf captured
  | _ => []

/-- The cons handles in a list of values. -/
def handlesOf : List Value → List Handle
  | [] => []
  | v :: vs => handles v ++ handlesOf vs

end

/-- The handles in a list of values are those of its members, in order. -/
@[simp] theorem handlesOf_eq_flatMap (vs : List Value) : handlesOf vs = vs.flatMap handles := by
  induction vs with
  | nil => simp [handlesOf]
  | cons v vs ih => simp [handlesOf, ih]

/-- Identity of values: equal atoms, the same object, or the same handle under the same tag. -/
def same : Value → Value → Bool
  | nil, nil => true
  | integer m, integer n => m == n
  | character c, character d => c == d
  | boolean a, boolean b => a == b
  | object h _, object k _ => h.id == k.id
  | cons t h, cons u k => t == u && h == k
  | _, _ => false

/-- The text of an object by itself. -/
def shownObject (header : Header) : Body Value → String
  | .text s => Text.quoted s
  | .symbol s => s
  | .closure arity _ _ => s!"<closure/{arity.toNat}>"
  | .bytes b => s!"<object {header.tag.shown} [{b.length} bytes]>"

/-- The text of a single value. A cons shows its handle. -/
def shown : Value → String
  | nil => "nil"
  | integer n => toString n.toInt
  | character c => "#\\" ++ c.toString
  | boolean true => "#t"
  | boolean false => "#f"
  | object header body => shownObject header body
  | cons tag handle => s!"<cons {tag.shown} {handle.shown}>"

end Value

end ConsHeap

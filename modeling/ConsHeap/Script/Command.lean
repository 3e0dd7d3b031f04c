import ConsHeap.Memory.Operation
import ConsHeap.Operand

/-!
# Scripts

A script is a list of steps on numbered heaps and on variables that all heaps share.

* `Command`: what one step asks for.
* `Tampering`: changes behind the back of a heap, to test its audit.
* `Step`: a command for one heap, or several steps over and over.
* `Error`, `Reply`: what comes back.
-/

namespace ConsHeap.Script

/-- A change behind the back of a heap. -/
inductive Tampering where
  /-- Let a cell record another slot. -/
  | place (l : Location) (slot : Nat) (isRoot : Bool)
  /-- Exchange a value in a cell without a check or barrier. -/
  | setChild (l : Location) (side : Side) (x : Operand)
  /-- Use the storage of a cell again. -/
  | renew (l : Location) (x : Operand)
  /-- Let a slot of the cons table name another cell. -/
  | exchange (i : Nat) (l : Location)
  /-- Let a spare entry of the root table name another cell. -/
  | park (i : Nat) (l : Location)
  /-- Take one from a root count. -/
  | decrease (i : Nat)
  /-- Add a page that no table names. -/
  | addPage (count first : Nat)
  /-- Make a free slot white. -/
  | extendWhite

/-- What one step asks for. -/
inductive Command where
  | newHeap (sizing : Sizing)
  | sizing
  | text (s : String)
  | symbol (s : String)
  | closure (arity : UInt8) (code : List UInt8) (captured : List Operand)
  | object (tag : Tag) (body : Body Operand)
  | register (tag : Tag) (kind : Kind)
  | kind (tag : Tag)
  | act (operation : Operation Operand)
  | child (side : Side) (x : Operand)
  | copy (x : Operand)
  | display (x : Operand)
  | inspect (x : Operand)
  | rootCount (x : Operand)
  | slot (x : Operand)
  | color (x : Operand)
  | print (x : Operand)
  | isScanned
  | occupancy
  | bounds
  | check
  | same (x y : Operand)
  | drop (name : String)
  | holders (name : String)
  | tamper (change : Tampering)

/-- A command for one heap, whose new value may go to a variable, or steps that are run a number of
times. -/
inductive Step where
  | once (heap : Nat) (target : Option String) (command : Command)
  | rounds (heap : Nat) (count : Nat) (steps : List Step)

/-- The heap that a step is for. -/
def Step.heap : Step → Nat
  | once heap .. => heap
  | rounds heap .. => heap

/-- Why a step is refused. -/
inductive Error where
  | unbound (name : String)
  | noHeap (n : Nat)
  | heap (e : HeapError)
  deriving DecidableEq

def Error.message : Error → String
  | unbound name => name
  | noHeap n => toString n
  | heap e => e.message

/-- What a step answers. -/
inductive Reply where
  | done
  | number (n : Nat)
  | flag (b : Bool)
  | string (s : String)
  | value (v : Value)
  /-- All that can be asked of a value. -/
  | inspection (v : Value)
  /-- The number of holders, for an object. -/
  | holders (n : Option Nat)
  | sizing (s : Sizing)
  /-- The name of a tag and the kind that is registered for it. -/
  | kind (name : String) (registered : Option Kind)
  | occupancy (o : Occupancy)
  | bounds (z : Zones)
  /-- The answers of the last of several rounds. -/
  | rounds (answers : List (Except Error Reply))

end ConsHeap.Script

import DeadLanes.Name

namespace DeadLanes

-- Where a pointer points. Every store is observable, whatever the storage.
inductive Storage where
  | function
  | invocation
  | input
  | output
  | uniform
  deriving DecidableEq

def Storage.text : Storage → String
  | .function => "Function"
  | .invocation => "Private"
  | .input => "Input"
  | .output => "Output"
  | .uniform => "Uniform"

def Storage.all : List Storage := [.function, .invocation, .input, .output, .uniform]

def Storage.ofText? (s : String) : Option Storage :=
  Storage.all.find? (·.text = s)

-- A type mentions other types by reference, so equal types compare equal.
inductive Ty where
  | void
  | bool
  | int (width : Nat) (signed : Bool)
  | float (width : Nat)
  | vector (elem : TypeRef) (lanes : Nat)
  | pointer (pointee : TypeRef) (storage : Storage)
  deriving DecidableEq

namespace Ty

def scalar : Ty → Bool
  | bool | int .. | float .. => true
  | _ => false

def vector? : Ty → Option (TypeRef × Nat)
  | vector elem lanes => some (elem, lanes)
  | _ => none

def pointee? : Ty → Option TypeRef
  | pointer pointee _ => some pointee
  | _ => none

end Ty

end DeadLanes

import Mathlib.Logic.Function.Basic

/-!
# CodeSage.Lib.Vec

A vector of fixed length as its length and its elements. Reading and writing check the index, and
`none` is the panic of an index out of bounds.
-/

namespace Lib

structure Vec (α : Type) where
  len : Nat
  get : Nat → α

namespace Vec

variable {α : Type}

/-- `vec![a; n]` -/
def fill (n : Nat) (a : α) : Vec α := ⟨n, fun _ => a⟩

def get? (v : Vec α) (i : Nat) : Option α := if i < v.len then some (v.get i) else none

def set? (v : Vec α) (i : Nat) (a : α) : Option (Vec α) :=
  if i < v.len then some { v with get := Function.update v.get i a } else none

theorem get?_eq {v : Vec α} {i : Nat} (h : i < v.len) : v.get? i = some (v.get i) := if_pos h

theorem set?_eq {v : Vec α} {i : Nat} (h : i < v.len) (a : α) :
    v.set? i a = some { v with get := Function.update v.get i a } := if_pos h

end Vec

end Lib

import HttpHead.Fault
import HttpHead.Violation

/-! The outcomes of a parse: a code for each, and for a failure its cause. -/
namespace HttpHead

inductive Code where
  | success
  | syntaxError
  | resourceExhausted
  | ioFailure
  deriving DecidableEq

namespace Code

def all : List Code := [success, syntaxError, resourceExhausted, ioFailure]

def number : Code → Nat
  | success => 0
  | syntaxError => 1
  | resourceExhausted => 2
  | ioFailure => 3

def ofNumber? (n : Nat) : Option Code := all.find? (·.number == n)

def description : Code → String
  | success => "the request head was accepted"
  | syntaxError => "the request head violates the HTTP/1.1 grammar"
  | resourceExhausted => "memory for the parse could not be reserved"
  | ioFailure => "the input source could not be read"

def isSuccess (code : Code) : Bool := code == success

end Code

inductive Error where
  /-- A rule was broken at an offset of the input. -/
  | malformed (violation : Violation) (offset : Nat)
  /-- Room for the header fields could not be reserved. -/
  | exhausted
  /-- The input source failed. -/
  | unreadable (fault : Fault)
  deriving DecidableEq

/-- The text of a reservation that is refused. -/
def capacityText : String :=
  "memory allocation failed because the computed capacity exceeded the collection's maximum"

namespace Error

def code : Error → Code
  | malformed .. => .syntaxError
  | exhausted => .resourceExhausted
  | unreadable _ => .ioFailure

def violation? : Error → Option Violation
  | malformed violation _ => some violation
  | _ => none

def message : Error → String
  | malformed violation offset => violation.text ++ " (at offset " ++ toString offset ++ ")"
  | exhausted => "resource exhausted: " ++ capacityText
  | unreadable fault => "input source unreadable: " ++ fault.text

end Error

def Code.ofResult {α : Type} : Except Error α → Code
  | .ok _ => .success
  | .error error => error.code

end HttpHead

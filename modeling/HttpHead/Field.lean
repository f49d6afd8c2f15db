import HttpHead.Decimal
import HttpHead.Field.Name
import HttpHead.Text.Utf8

/-! Header fields in the order of their arrival. Fields of one name stay apart
and keep the spelling of their names; a look-up compares names up to case. -/
namespace HttpHead

structure Field where
  name : String
  value : Octets
  deriving DecidableEq

namespace Field

def fieldName (field : Field) : FieldName := .ofText field.name

def isNamed (name : String) (field : Field) : Bool := Text.sameUpToCase field.name name

/-- The line as it is written: one space behind the colon. -/
def line (field : Field) : Octets :=
  Utf8.encode field.name ++ [Octet.colon, Octet.sp] ++ field.value ++ Octets.crlf

/-- The line as a text; a value that is no text loses its ill-formed parts. -/
def display (field : Field) : String :=
  field.name ++ ": " ++ Utf8.decodeLossy field.value ++ "\r\n"

end Field

structure Fields where
  entries : Array Field
  deriving DecidableEq

namespace Fields

def empty : Fields := ⟨#[]⟩

def toList (fields : Fields) : List Field := fields.entries.toList

def size (fields : Fields) : Nat := fields.entries.size

def isEmpty (fields : Fields) : Bool := fields.entries.isEmpty

/-- Puts a field behind the others, also if one of its name is there already. -/
def append (fields : Fields) (field : Field) : Fields := ⟨fields.entries.push field⟩

def clear (fields : Fields) : Fields := { fields with entries := #[] }

def getAll (fields : Fields) (name : String) : List Octets :=
  (fields.toList.filter (·.isNamed name)).map (·.value)

def get? (fields : Fields) (name : String) : Option Octets := (fields.getAll name).head?

def contains (fields : Fields) (name : String) : Bool := (fields.get? name).isSome

/-- The octets that one field takes up in memory. -/
def slot : Nat := 48

/-- The largest block of memory. -/
def largestBlock : Nat := 0x7FFFFFFFFFFFFFFF

def canReserve (fields : Fields) (additional : Nat) : Bool :=
  (fields.size + additional) * slot ≤ largestBlock

end Fields

end HttpHead

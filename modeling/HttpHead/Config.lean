import HttpHead.Text.Case

/-! The settings of a receiver: how strict it is, and how much it takes in. -/
namespace HttpHead

/-- How much a parse forgives. A strict one refuses extension methods, repeated
Content-Length and Host fields, and an HTTP/1.1 head without Host. -/
inductive Strictness where
  | lenient
  | strict
  deriving DecidableEq

namespace Strictness

def all : List Strictness := [lenient, strict]

def text : Strictness → String
  | lenient => "lenient"
  | strict => "strict"

def ofText? (s : String) : Option Strictness := all.find? (Text.sameUpToCase ·.text s)

def unknownText : String := "Matching variant not found"

end Strictness

/-- Upper bounds, in octets but for the number of fields. -/
structure Limits where
  method : Nat := 32
  target : Nat := 8192
  /-- A whole field line, without its end. -/
  fieldLine : Nat := 8192
  /-- A head that is read from a stream. -/
  head : Nat := 65536
  fieldCount : Nat := 100
  deriving DecidableEq

structure Config where
  strictness : Strictness := .lenient
  limits : Limits := {}
  /-- The number of fields for which room is reserved before a parse. -/
  fieldCapacity : Nat := 16
  deriving DecidableEq

def Config.isStrict (config : Config) : Bool := config.strictness == .strict

end HttpHead

import HttpHead.Text.Split

/-! The forms of a request target: a path with a query, an absolute URI, a host
with the number of a service, or the asterisk. Parsing never needs the form; it is
there for those who route on the target. -/
namespace HttpHead

/-- Targets are ordered by form as listed, and within a form by their text. -/
inductive Target where
  | origin (path query : String)
  | absolute (text : String)
  | authority (text : String)
  | asterisk
  deriving DecidableEq, Ord

namespace Target

def isSchemeChar (c : Char) : Bool := c.isAlphanum || c == '+' || c == '-' || c == '.'

def originOf (s : List Char) : Target :=
  match Text.cut? ['?'] s with
  | some (path, query) => origin (.ofList path) (.ofList query)
  | none => origin (.ofList s) ""

def isAbsolute (scheme rest : List Char) : Bool :=
  !scheme.isEmpty && !rest.isEmpty && scheme.all isSchemeChar

/-- A host without a slash and a number, neither of them empty. -/
def isAuthority (host number : List Char) : Bool :=
  !host.isEmpty && !host.contains '/' && !number.isEmpty && number.all Char.isDigit

/-- The form of a target. The asterisk and the leading slash decide first; then
the first colon with two slashes, and only without one the last colon. -/
def ofText? (s : String) : Option Target :=
  let cs := s.toList
  if cs == ['*'] then some asterisk
  else if cs.head? == some '/' then some (originOf cs)
  else match Text.cut? [':', '/', '/'] cs with
    | some (scheme, rest) => if isAbsolute scheme rest then some (absolute s) else none
    | none =>
      match Text.cutLast? [':'] cs with
      | some (host, number) => if isAuthority host number then some (authority s) else none
      | none => none

/-- The path of the origin form, and the whole target otherwise. -/
def text : Target → String
  | origin path _ => path
  | absolute text => text
  | authority text => text
  | asterisk => "*"

end Target

end HttpHead

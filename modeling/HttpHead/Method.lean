/-! Request methods. A registered method is known by a verb; every other text is
an extension method, so that no text is lost and none is read as another. -/
namespace HttpHead

/-- The registered methods, in the order by which methods are compared. -/
inductive Verb where
  | acl
  | baselineControl
  | bind
  | checkIn
  | checkOut
  | connect
  | copy
  | delete
  | get
  | head
  | label
  | link
  | lock
  | merge
  | mkActivity
  | mkCalendar
  | mkCol
  | mkRedirectRef
  | mkWorkspace
  | move
  | options
  | orderPatch
  | patch
  | post
  | pri
  | propFind
  | propPatch
  | put
  | rebind
  | report
  | search
  | trace
  | unbind
  | uncheckout
  | unlink
  | unlock
  | update
  | updateRedirectRef
  | versionControl
  deriving DecidableEq, Ord

namespace Verb

def text : Verb → String
  | acl => "ACL"
  | baselineControl => "BASELINE-CONTROL"
  | bind => "BIND"
  | checkIn => "CHECKIN"
  | checkOut => "CHECKOUT"
  | connect => "CONNECT"
  | copy => "COPY"
  | delete => "DELETE"
  | get => "GET"
  | head => "HEAD"
  | label => "LABEL"
  | link => "LINK"
  | lock => "LOCK"
  | merge => "MERGE"
  | mkActivity => "MKACTIVITY"
  | mkCalendar => "MKCALENDAR"
  | mkCol => "MKCOL"
  | mkRedirectRef => "MKREDIRECTREF"
  | mkWorkspace => "MKWORKSPACE"
  | move => "MOVE"
  | options => "OPTIONS"
  | orderPatch => "ORDERPATCH"
  | patch => "PATCH"
  | post => "POST"
  | pri => "PRI"
  | propFind => "PROPFIND"
  | propPatch => "PROPPATCH"
  | put => "PUT"
  | rebind => "REBIND"
  | report => "REPORT"
  | search => "SEARCH"
  | trace => "TRACE"
  | unbind => "UNBIND"
  | uncheckout => "UNCHECKOUT"
  | unlink => "UNLINK"
  | unlock => "UNLOCK"
  | update => "UPDATE"
  | updateRedirectRef => "UPDATEREDIRECTREF"
  | versionControl => "VERSION-CONTROL"

/-- The texts by which the registered methods are found. -/
def table : List (String × Verb) :=
  [("ACL", acl), ("BASELINE-CONTROL", baselineControl), ("BIND", bind), ("CHECKIN", checkIn),
    ("CHECKOUT", checkOut), ("CONNECT", connect), ("COPY", copy), ("DELETE", delete), ("GET", get),
    ("HEAD", head), ("LABEL", label), ("LINK", link), ("LOCK", lock), ("MERGE", merge),
    ("MKACTIVITY", mkActivity), ("MKCALENDAR", mkCalendar), ("MKCOL", mkCol),
    ("MKREDIRECTREF", mkRedirectRef), ("MKWORKSPACE", mkWorkspace), ("MOVE", move),
    ("OPTIONS", options), ("ORDERPATCH", orderPatch), ("PATCH", patch), ("POST", post),
    ("PRI", pri), ("PROPFIND", propFind), ("PROPPATCH", propPatch), ("PUT", put),
    ("REBIND", rebind), ("REPORT", report), ("SEARCH", search), ("TRACE", trace),
    ("UNBIND", unbind), ("UNCHECKOUT", uncheckout), ("UNLINK", unlink), ("UNLOCK", unlock),
    ("UPDATE", update), ("UPDATEREDIRECTREF", updateRedirectRef),
    ("VERSION-CONTROL", versionControl)]

def ofText? (s : String) : Option Verb := (table.find? (·.1 == s)).map (·.2)

end Verb

/-- Extension methods come before the registered ones, ordered by their text. -/
inductive Method where
  | extension (text : String)
  | registered (verb : Verb)
  deriving DecidableEq, Ord

namespace Method

def text : Method → String
  | extension text => text
  | registered verb => verb.text

def registered? (s : String) : Option Method := (Verb.ofText? s).map registered

def ofText (s : String) : Method :=
  match registered? s with
  | some method => method
  | none => extension s

/-- The method of a text that is given away, so that an extension keeps it. -/
def ofOwned (s : String) : Method := (registered? s).getD (extension s)

def isExtension : Method → Bool
  | extension _ => true
  | registered _ => false

end Method

end HttpHead

import HttpHead.Text.Utf8

/-! The protocol versions that a request line can carry. -/
namespace HttpHead

inductive Version where
  | http10
  | http11
  deriving DecidableEq, Ord

namespace Version

def all : List Version := [http10, http11]

def text : Version → String
  | http10 => "HTTP/1.0"
  | http11 => "HTTP/1.1"

/-- The name is taken as it is spelled, capitals included. -/
def ofOctets? (text : Octets) : Option Version := all.find? (Utf8.encode ·.text == text)

end Version

end HttpHead

import HttpHead.Text.Utf8

/-! Comparison of names up to the case of their ASCII letters. -/
namespace HttpHead.Text

/-- The text with its ASCII capitals made small; no other character changes. -/
def foldCase (s : String) : String := .ofList (s.toList.map Char.toLower)

/-- The same in place: the octets of the text are changed one by one. They stay those of a text,
because no octet of a longer character is that of a letter. -/
def foldOctets (s : String) : String := (Utf8.decode? (Utf8.encode s).lower).getD s

def sameUpToCase (s t : String) : Bool := foldCase s == foldCase t

end HttpHead.Text

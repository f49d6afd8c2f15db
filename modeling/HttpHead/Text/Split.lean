/-! Cutting a text at the first or the last occurrence of a separator. -/
namespace HttpHead.Text

/-- What stands before and after the first occurrence of `sep`; the characters
that were passed over are kept in reverse in `passed`. -/
def cutFrom? (sep passed : List Char) : List Char → Option (List Char × List Char)
  | [] => none
  | c :: cs =>
    if sep.isPrefixOf (c :: cs) then some (passed.reverse, (c :: cs).drop sep.length)
    else cutFrom? sep (c :: passed) cs

def cut? (sep s : List Char) : Option (List Char × List Char) := cutFrom? sep [] s

def cutLast? (sep s : List Char) : Option (List Char × List Char) :=
  (cut? sep.reverse s.reverse).map fun (after, before) => (before.reverse, after.reverse)

end HttpHead.Text

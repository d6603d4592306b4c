namespace LeaseOverlay

abbrev Reading (α : Type) := List Char → Option (α × List Char)

namespace Reading

def skip (c : Char) : List Char → Option (List Char)
  | [] => none
  | d :: cs => if d = c then some cs else none

def after {α : Type} (sep : Char) (read : Reading α) : Reading α := fun cs => (skip sep cs).bind read

end Reading

end LeaseOverlay

/-!
# Separated text

Splitting at a separator keeps empty pieces, so a text without separators is one
piece and an empty text is one empty piece.
-/

namespace AddressPlan.Separated

/-- The pieces between separators. -/
def split (separator : Char) (cs : List Char) : List (List Char) :=
  cs.foldr
    (fun c pieces ↦ if c = separator then [] :: pieces else pieces.modifyHead (c :: ·)) [[]]

@[simp] theorem split_nil (separator : Char) : split separator [] = [[]] := rfl

theorem split_cons (separator c : Char) (cs : List Char) :
    split separator (c :: cs) =
      if c = separator then [] :: split separator cs
      else (split separator cs).modifyHead (c :: ·) := rfl

def splitFirst? (separator : Char) : List Char → Option (List Char × List Char)
  | [] => none
  | c :: cs =>
    if c = separator then some ([], cs)
    else (splitFirst? separator cs).map fun (before, after) ↦ (c :: before, after)

end AddressPlan.Separated

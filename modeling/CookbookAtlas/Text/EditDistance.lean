/-! The least number of insertions, deletions and replacements of characters between two texts. -/
namespace CookbookAtlas.Text

/-- One row of the table: `above` is the row before it, `corner` the entry above to the left,
`left` the entry to the left. -/
def editRow (c : Char) (corner left : Nat) : List Char → List Nat → List Nat
  | d :: ds, up :: above =>
    let here := min (min (up + 1) (left + 1)) (if c = d then corner else corner + 1)
    here :: editRow c up here ds above
  | _, _ => []

def editRows (ds : List Char) (row : List Nat) : List Char → List Nat
  | [] => row
  | c :: cs =>
    let first := row.headD 0
    editRows ds ((first + 1) :: editRow c first (first + 1) ds row.tail) cs

def editDistance (xs ys : List Char) : Nat :=
  (editRows ys (List.range (ys.length + 1)) xs).getLastD 0

end CookbookAtlas.Text

import CookbookAtlas.Toml.Table
import CookbookAtlas.Toml.Text

/-! Reading of TOML documents. Fuel bounds the nesting and the number of parts, and the length of
the text is enough of it. -/
namespace CookbookAtlas.Toml

mutual
def value? : Nat → List Char → Option (Item × List Char)
  | 0, _ => none
  | fuel + 1, cs =>
    match cs with
    | '[' :: rest => (items? fuel [] rest).map fun p => (.array p.1, p.2)
    | '\x7b' :: rest => (members? fuel [] rest).map fun p => (.table .inline p.1, p.2)
    | '"' :: _ | '\'' :: _ => (quoted? cs).map fun p => (.scalar (.string p.1), p.2)
    | _ =>
      let text := scalarText cs
      (scalarOf? text).map fun s => (.scalar s, cs.drop text.length)

def items? : Nat → List Item → List Char → Option (List Item × List Char)
  | 0, _, _ => none
  | fuel + 1, done, cs =>
    match skipLines (cs.length + 1) cs with
    | none => none
    | some (']' :: rest) => some (done.reverse, rest)
    | some rest =>
      match value? fuel rest with
      | none => none
      | some (item, rest) =>
        match skipLines (rest.length + 1) rest with
        | some (',' :: rest) => items? fuel (item :: done) rest
        | some (']' :: rest) => some ((item :: done).reverse, rest)
        | _ => none

def members? : Nat → Table → List Char → Option (Table × List Char)
  | 0, _, _ => none
  | fuel + 1, done, cs =>
    match skipLines (cs.length + 1) cs with
    | none => none
    | some ('\x7d' :: rest) => some (done, rest)
    | some rest =>
      match key? (rest.length + 1) rest with
      | some (path, '=' :: rest) =>
        match value? fuel (skipBlank rest) with
        | none => none
        | some (item, rest) =>
          match done.insert path item, skipLines (rest.length + 1) rest with
          | some done, some (',' :: rest) => members? fuel done rest
          | some done, some ('\x7d' :: rest) => some (done, rest)
          | _, _ => none
      | _ => none
end

/-- The header that a line starts with, whether it is one of several, and what follows it. -/
def header? (cs : List Char) : Option (List String × Bool × List Char) :=
  match cs with
  | '[' :: '[' :: rest =>
    match key? (rest.length + 1) rest with
    | some (path, ']' :: ']' :: rest) => some (path, true, rest)
    | _ => none
  | '[' :: rest =>
    match key? (rest.length + 1) rest with
    | some (path, ']' :: rest) => some (path, false, rest)
    | _ => none
  | _ => none

structure State where
  root : Table
  header : List String

def expression? (s : State) (cs : List Char) : Option (State × List Char) :=
  match cs with
  | '[' :: _ =>
    match header? cs with
    | some (path, several, rest) =>
      (s.root.openHeader path several).map fun root => (⟨root, path⟩, rest)
    | none => none
  | _ =>
    match key? (cs.length + 1) cs with
    | some (path, '=' :: rest) =>
      match value? (rest.length + 1) (skipBlank rest) with
      | some (item, rest) =>
        (s.root.change (fun t => t.insert path item) s.header).map fun root => ({ s with root }, rest)
      | none => none
    | _ => none

def lines? : Nat → State → List Char → Option Table
  | 0, _, _ => none
  | fuel + 1, s, cs =>
    match skipLines (cs.length + 1) cs with
    | none => none
    | some [] => some s.root
    | some rest =>
      match expression? s rest with
      | none => none
      | some (s, rest) =>
        match skipComment (skipBlank rest) with
        | none => none
        | some rest =>
          match lineEnd? rest with
          | some rest => lines? fuel s rest
          | none => none

def read? (cs : List Char) : Option Table :=
  let body := match cs with
    | '﻿' :: rest => rest
    | cs => cs
  lines? (body.length + 1) ⟨[], []⟩ body

end CookbookAtlas.Toml

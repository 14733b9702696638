import CookbookAtlas.Execution.Node

/-! Trees as text, one node to a line: groups of four characters for the depth, a branch mark,
the label. -/
namespace CookbookAtlas.Execution

def branch : String := "├── "
def lastBranch : String := "└── "
def pipeIndent : String := "│   "
def spaceIndent : String := "    "

def mark (last : Bool) : String := if last then lastBranch else branch
def indentBelow (last : Bool) : String := if last then spaceIndent else pipeIndent

def isCut (limit : Option Nat) (depth : Nat) (children : List Node) : Bool :=
  limit.any (· ≤ depth) && !children.isEmpty

def lineText (limit : Option Nat) (depth : Nat) (info : Info) (children : List Node) : String :=
  if isCut limit depth children then s!"{info.label} [{Node.countAll children} more]"
  else info.label

mutual
/-- The lines of a node and of what is below it. `lead` stands before its own label, `below`
before the marks of its children. -/
def Node.lines (limit : Option Nat) (depth : Nat) (lead below : String) : Node → List String
  | .mk info children =>
    (lead ++ lineText limit depth info children) ::
      if isCut limit depth children then [] else siblingLines limit (depth + 1) below children

def siblingLines (limit : Option Nat) (depth : Nat) (indent : String) : List Node → List String
  | [] => []
  | n :: rest =>
    n.lines limit depth (indent ++ mark rest.isEmpty) (indent ++ indentBelow rest.isEmpty)
      ++ siblingLines limit depth indent rest
end

def Node.render (n : Node) (limit : Option Nat) : String :=
  String.join ((n.lines limit 0 "" "").map (· ++ "\n"))

/-- The rest of a line after its indent groups, and their number. -/
def dropGroups (cs : List Char) : Nat × List Char :=
  match cs with
  | '│' :: ' ' :: ' ' :: ' ' :: rest | ' ' :: ' ' :: ' ' :: ' ' :: rest =>
    let (n, rest) := dropGroups rest
    (n + 1, rest)
  | _ => (0, cs)

/-- The depth that a line of a rendering shows; one without a branch mark is a root. -/
def lineDepth (line : List Char) : Nat :=
  let (groups, rest) := dropGroups line
  if branch.toList.isPrefixOf rest || lastBranch.toList.isPrefixOf rest then groups + 1 else 0

def depthProfile (cs : List Char) : List Nat := (Text.lines cs).map lineDepth

end CookbookAtlas.Execution

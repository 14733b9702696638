import CookbookAtlas.Recipe.Call

/-! The loops of a file, each with the line on which its block ends. -/
namespace CookbookAtlas.Recipe

/-- Loops in order of opening; for each open block, innermost first, the loop that it is. -/
structure LoopScan where
  loops : List Loop
  blocks : List (Option Nat)

namespace LoopScan

def start : LoopScan := ⟨[], []⟩

def endAt (loops : List Loop) (index line : Nat) : List Loop :=
  loops.modify index fun l => { l with endLine := line }

def loopOf? (s : Source) (first : Token) (toks : Statement) : Option Loop :=
  if first.ident?.any isKeyword then none
  else match blockDo? toks with
    | none => none
    | some (head, parameters) =>
      (eachCall? head).map fun each =>
        ⟨s.file, first.line, first.line, s.text each.receiver, each.method, parameters⟩

def statement (s : Source) (scan : LoopScan) (toks : Statement) : LoopScan :=
  match toks with
  | [] => scan
  | first :: _ =>
    if first.isWord "end" then
      match scan.blocks with
      | some index :: rest => ⟨endAt scan.loops index first.line, rest⟩
      | none :: rest => { scan with blocks := rest }
      | [] => scan
    else match balance toks with
      | .ofNat (count + 1) =>
        match loopOf? s first toks with
        | some l =>
          ⟨scan.loops ++ [l], List.replicate count none ++ some scan.loops.length :: scan.blocks⟩
        | none => { scan with blocks := List.replicate (count + 1) none ++ scan.blocks }
      | _ => scan

def finish (line : Nat) (scan : LoopScan) : List Loop :=
  (scan.blocks.filterMap id).foldl (fun loops index => endAt loops index line) scan.loops

end LoopScan

def loops (s : Source) (tokens : List Token) (statements : List Statement) : List Loop :=
  let lastLine := (tokens.getLast?.map Token.line).getD 1
  (statements.foldl (LoopScan.statement s) LoopScan.start).finish lastLine

end CookbookAtlas.Recipe

import CookbookAtlas.Files.World

/-! Running external tools. What a runner does to the world is its own affair; the calls made
are kept with the world. -/
namespace CookbookAtlas.Tool

structure Output where
  stdout : String
  stderr : String
deriving DecidableEq

structure Runner where
  available : World → String → Bool
  run : Command → Act Output

namespace Runner

def require (r : Runner) (tool : String) : Act Unit := do
  let w ← get
  if r.available w tool then pure () else throw (.ofFailure (.toolNotFound tool))

def call (r : Runner) (c : Command) : Act Output := do
  modify fun w => { w with calls := w.calls ++ [c] }
  r.run c

end Runner
end CookbookAtlas.Tool

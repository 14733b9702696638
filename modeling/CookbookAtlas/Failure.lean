import CookbookAtlas.Text.Basic

/-! What can go wrong, and how it is told: a failure of a known kind, a plain note, or a fault
of the system, each possibly wrapped in accounts of what was being done. -/
namespace CookbookAtlas

inductive Failure
  | noStrategy (path : String) (expected : List String)
  | toolNotFound (tool : String)
  | toolFailed (tool operation stderr : String) (code : Option Int)
  | toolTimeout (tool operation : String) (seconds : Nat)
  | malformedLock (file reason : String)
  | recipeNotFound (name : String)
  | cookbookNotFound (name : String)
  | config (message : String)
  | fileSystem (operation path : String)
  | other (message : String)
deriving DecidableEq

namespace Failure

def message : Failure → String
  | .noStrategy path _ => s!"No dependency resolution strategy detected for {path}"
  | .toolNotFound tool => s!"Required tool '{tool}' is not installed or not found in PATH"
  | .toolFailed tool operation _ _ => s!"'{tool} {operation}' failed"
  | .toolTimeout tool operation seconds =>
    s!"'{tool} {operation}' timed out after {seconds} seconds"
  | .malformedLock file reason => s!"Malformed lock file {file}: {reason}"
  | .recipeNotFound name => s!"Recipe '{name}' not found in any cookbook directory"
  | .cookbookNotFound name => s!"Cookbook '{name}' not found"
  | .config message => s!"Configuration error: {message}"
  | .fileSystem operation path => s!"File system error during {operation}: {path}"
  | .other message => message

def isToolFailure : Failure → Bool
  | .toolFailed _ _ _ _ | .toolTimeout _ _ _ => true
  | _ => false

end Failure

/-- Kind of a fault of the system, as far as advice depends on it. -/
inductive SystemFault
  | notFound
  | permissionDenied
  | other
deriving DecidableEq

inductive Cause
  | failure (f : Failure)
  | note (text : String)
  | system (fault : SystemFault) (text : String)
deriving DecidableEq

namespace Cause

def message : Cause → String
  | .failure f => f.message
  | .note text | .system _ text => text

def failure? : Cause → Option Failure
  | .failure f => some f
  | _ => none

def system? : Cause → Option (SystemFault × String)
  | .system fault text => some (fault, text)
  | _ => none

def json : Cause := .note "<json>"

def yaml : Cause := .note "<yaml>"

def toml : Cause := .note "<toml>"

def io (fault : SystemFault) : Cause := .system fault "<io>"

end Cause

/-- An account of what went wrong: the outermost link, and those it was caused by. -/
structure Trouble where
  head : Cause
  causes : List Cause
deriving DecidableEq

namespace Trouble

def of (c : Cause) : Trouble := ⟨c, []⟩

def ofFailure (f : Failure) : Trouble := of (.failure f)

def within (t : Trouble) (c : Cause) : Trouble := ⟨c, t.head :: t.causes⟩

def during (t : Trouble) (text : String) : Trouble := t.within (.note text)

def links (t : Trouble) : List Cause := t.head :: t.causes

def message (t : Trouble) : String := t.head.message

def fullMessage (t : Trouble) : String := String.intercalate ": " (t.links.map Cause.message)

def failure? (t : Trouble) : Option Failure := t.links.findSome? Cause.failure?

def system? (t : Trouble) : Option (SystemFault × String) := t.links.findSome? Cause.system?

def isToolFailure (t : Trouble) : Bool := t.failure?.any Failure.isToolFailure

end Trouble
end CookbookAtlas

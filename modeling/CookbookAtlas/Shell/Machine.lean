import CookbookAtlas.Files.Edit
import CookbookAtlas.Shell.Basic
import CookbookAtlas.Shell.Pattern

/-! The state of a running script, and what it writes. -/
namespace CookbookAtlas.Shell

inductive Halt
  | exit
  | leaveFunction
  | leaveLoop (levels : Nat)
  | nextTurn (levels : Nat)
  | signal
  | timeout
deriving DecidableEq

structure Machine where
  world : World
  name : String
  arguments : List String
  bindings : List (String × String)
  exported : List String
  functions : List (String × Command)
  status : Nat
  input : List Char
  out : List Char
  err : List Char
  clock : Nat
  limit : Nat
  halt : Option Halt
  strict : Bool

inductive Sink
  | out
  | err
  | file (place : Files.Place)
  | nothing
deriving DecidableEq

structure Streams where
  out : Sink
  err : Sink
  /-- Failing is what this part is asked about, so it never ends the script. -/
  tested : Bool

namespace Machine

def start (w : World) (environment : List (String × String)) (limit : Nat) : Machine where
  world := w
  name := "sh"
  arguments := []
  bindings := environment
  exported := environment.map Prod.fst
  functions := []
  status := 0
  input := []
  out := []
  err := []
  clock := 0
  limit := limit
  halt := none
  strict := false

def get? (m : Machine) (name : String) : Option String :=
  (m.bindings.reverse.find? fun v => v.1 == name).map Prod.snd

def set (m : Machine) (name value : String) : Machine :=
  { m with bindings := (m.bindings.filter fun v => v.1 != name) ++ [(name, value)] }

def unset (m : Machine) (name : String) : Machine :=
  { m with bindings := m.bindings.filter fun v => v.1 != name }

def environment (m : Machine) : List (String × String) :=
  m.exported.eraseDups.filterMap fun name => (m.get? name).map fun value => (name, value)

def done (m : Machine) (status : Nat) : Machine := { m with status }

def stop (m : Machine) (halt : Halt) : Machine := { m with halt := some halt }

def isStopped (m : Machine) : Bool := m.halt.isSome

def appendTo (m : Machine) (place : Files.Place) (cs : List Char) : Machine :=
  let (old, executable) := match m.world.files.get? place with
    | some (.file bytes executable) => (bytes, executable)
    | _ => ([], false)
  let files := m.world.files.put place (.file (old ++ Text.Utf8.encode cs) executable)
  { m with world := { m.world with files } }

def write (m : Machine) (sink : Sink) (cs : List Char) : Machine :=
  match sink with
  | .out => { m with out := m.out ++ cs }
  | .err => { m with err := m.err ++ cs }
  | .file place => m.appendTo place cs
  | .nothing => m

def say (m : Machine) (s : Streams) (text : String) : Machine := m.write s.out text.toList

def complain (m : Machine) (s : Streams) (text : String) (status : Nat) : Machine :=
  (m.write s.err (text ++ "\n").toList).done status

def report (m : Machine) (s : Streams) (line : Nat) (text : String) (status : Nat) : Machine :=
  m.complain s (m.name ++ ": " ++ toString line ++ ": " ++ text) status

def sleep (m : Machine) (milliseconds : Nat) : Machine :=
  let m := { m with clock := m.clock + milliseconds, status := 0 }
  if m.limit ≤ m.clock then m.stop .timeout else m

def setFiles (m : Machine) (files : Files.Tree) : Machine :=
  { m with world := { m.world with files } }

def here (m : Machine) : String := (World.pathOf m.world.here).text

/-- The value of a parameter that one character or a number names. -/
def special? (m : Machine) (name : List Char) : Option (Option String) :=
  match name with
  | ['@'] | ['*'] => some (some (String.intercalate " " m.arguments))
  | ['#'] => some (some (toString m.arguments.length))
  | ['?'] => some (some (toString m.status))
  | ['$'] => some (some "1000")
  | ['!'] => some none
  | ['-'] => some (some (if m.strict then "e" else ""))
  | ['0'] => some (some m.name)
  | c :: _ =>
    if Text.isAsciiDigit c then some (((String.ofList name).toNat?).bind fun n => m.arguments[n - 1]?)
    else none
  | [] => none

def value? (m : Machine) (name : List Char) : Option String :=
  match m.special? name with
  | some value => value
  | none => m.get? (String.ofList name)

end Machine
end CookbookAtlas.Shell

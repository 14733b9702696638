import CookbookAtlas.Shell.Eval
import CookbookAtlas.Tool.Runner

/-! The runner that runs programs of the file tree: shell scripts and standard programs. -/
namespace CookbookAtlas.Tool
namespace Programs

def available (w : World) (tool : String) : Bool :=
  Shell.Program.isProgram (Shell.Program.find w (w.setting? "PATH") tool)

/-- Whether a program can be started: a script needs the interpreter that it names. -/
def startable (w : World) : Shell.Found → Except SystemFault Shell.Program
  | .missing => .error .notFound
  | .denied => .error .permissionDenied
  | .program (.script text interpreter) =>
    match interpreter with
    | none | some [] => .error .other
    | some (path :: _) =>
      match Shell.Program.atPath w ⟨path⟩ with
      | .program _ => .ok (.script text interpreter)
      | .denied => .error .permissionDenied
      | .missing => .error .notFound
  | .program p => .ok p

def directory (w : World) (c : Command) : Except SystemFault Files.Place :=
  match c.workingDir with
  | none => .ok w.here
  | some dir =>
    match w.entry dir with
    | .error fault => .error fault
    | .ok (.file _ _) => .error .other
    | .ok .directory => w.place dir

/-- Starts a call: the machine it runs on, and the program. -/
def start (w : World) (c : Command) : Except SystemFault (Shell.Machine × Shell.Program) := do
  let here ← directory w c
  let m := Shell.Machine.start { w with here } (w.environment ++ c.environment) c.timeout
  let program ← startable m.world (Shell.Program.find m.world (m.get? "PATH") c.program)
  return (m, program)

def outcome (c : Command) (m : Shell.Machine) : Except Failure Output :=
  let stdout := String.ofList m.out
  let stderr := String.ofList m.err
  let failed (code : Option Int) : Failure :=
    .toolFailed c.program c.operation (if (Text.trimmed stderr).isEmpty then stdout
      else stderr) code
  match m.halt with
  | some .timeout => .error (.toolTimeout c.program c.operation (c.timeout / 1000))
  | some .signal => .error (failed none)
  | _ => if m.status = 0 then .ok ⟨stdout, stderr⟩ else .error (failed (some m.status))

def run (c : Command) : Act Output := do
  let w ← get
  match start w c with
  | .error fault => throw ((Trouble.of (.io fault)).during ("Failed to execute " ++ c.text))
  | .ok (m, program) =>
    let m := Shell.launch Shell.allowance ⟨.out, .err, false⟩ m c.program program c.arguments
    set { w with files := m.world.files }
    match outcome c m with
    | .ok output => return output
    | .error failure => throw (.ofFailure failure)

def runner : Runner := ⟨available, run⟩

end Programs
end CookbookAtlas.Tool

import CookbookAtlas.Shell.Program
import CookbookAtlas.Shell.Read

/-! Running scripts. `fuel` bounds how deep commands nest and how often loops turn; a script that
needs more is taken for one that never ends. -/
namespace CookbookAtlas.Shell

def dropNewlines (cs : List Char) : List Char := (cs.reverse.dropWhile (· = '\n')).reverse

namespace Machine

def afterSubshell (m inner : Machine) : Machine :=
  { m with
    world := { inner.world with here := m.world.here }
    out := inner.out
    err := inner.err
    input := inner.input
    clock := inner.clock
    status := inner.status
    halt := match inner.halt with
      | some .timeout => some .timeout
      | some .signal => some .signal
      | _ => none }

/-- Ends a strict script after a failure that nothing asked about. -/
def settle (m : Machine) (s : Streams) : Machine :=
  if m.strict && !s.tested && m.status != 0 && !m.isStopped then m.stop .exit else m

def child (m : Machine) : Machine :=
  { m with bindings := m.environment, functions := [], strict := false }

def restore (m before : Machine) (names : List String) : Machine :=
  names.foldl (fun m name =>
    let m := match before.get? name with
      | some value => m.set name value
      | none => m.unset name
    { m with exported := if before.exported.contains name then m.exported
    else m.exported.filter (· != name) }) m

def endTurn (m : Machine) : Machine × Bool :=
  match m.halt with
  | none => (m, true)
  | some (.leaveLoop n) =>
    (if n ≤ 1 then { m with halt := none } else m.stop (.leaveLoop (n - 1)), false)
  | some (.nextTurn n) =>
    if n ≤ 1 then ({ m with halt := none }, true) else (m.stop (.nextTurn (n - 1)), false)
  | some _ => (m, false)

def exitWith (m : Machine) (args : List String) (halt : Halt) : Machine :=
  match args with
  | n :: _ => { m with status := (n.toNat?.getD 2) % 256, halt := some halt }
  | [] => m.stop halt

def levels (args : List String) : Nat := ((args.head?.bind String.toNat?).getD 1)

def setOptions (m : Machine) : List String → Machine
  | [] => m
  | "--" :: args => { m with arguments := args }
  | "-o" :: _ :: rest | "+o" :: _ :: rest => setOptions m rest
  | arg :: rest =>
    match arg.toList with
    | '-' :: flags => setOptions (if flags.contains 'e' then { m with strict := true } else m) rest
    | '+' :: flags => setOptions (if flags.contains 'e' then { m with strict := false } else m) rest
    | _ => { m with arguments := arg :: rest }

def declare (m : Machine) (exports : Bool) (args : List String) : Machine :=
  (args.foldl (fun m arg =>
    let name := String.ofList (arg.toList.takeWhile (· ≠ '='))
    let m := if arg.toList.contains '='
    then m.set name (String.ofList (arg.toList.drop (name.length + 1))) else m
    if exports then { m with exported := m.exported ++ [name] } else m) m).done 0

def changeDirectory (m : Machine) (s : Streams) (line : Nat) (args : List String) : Machine :=
  let target := args.headD ((m.get? "HOME").getD "/")
  match m.world.entry ⟨target⟩, m.world.place ⟨target⟩ with
  | .ok .directory, .ok place =>
    let m := { m with world := { m.world with here := place } }
    (m.set "PWD" m.here).done 0
  | _, _ => m.report s line ("cd: can't cd to " ++ target) 2

def assignWords (m : Machine) : List String → List (List Char) → Machine
  | [], _ => m
  | [name], ws => m.set name (String.ofList (List.intercalate [' '] ws))
  | name :: names, w :: ws => assignWords (m.set name (String.ofList w)) names ws
  | name :: names, [] => assignWords (m.set name "") names []

def readLine (m : Machine) (args : List String) : Machine :=
  let names := args.filter fun a => a.toList.head? != some '-'
  let line := m.input.takeWhile (· ≠ '\n')
  let rest := m.input.drop line.length
  let keepBlanks := m.get? "IFS" == some ""
  let words := if keepBlanks then [line] else Text.words line
  let m := assignWords { m with input := rest.drop 1 } names words
  m.done (if rest.isEmpty then 1 else 0)

def kill (m : Machine) (s : Streams) (line : Nat) (args : List String) : Machine :=
  let targets := args.filter fun a => a.toList.head? != some '-'
  if targets.contains "1000" then
    if args.contains "-0" then m.done 0 else m.stop .signal
  else m.report s line "kill: No such process" 1

end Machine

def openSink (m : Machine) (direction : Direction) (path : String) :
    Except String (Sink × Machine) :=
  match path with
  | "/dev/null" => .ok (.nothing, m)
  | "/dev/stdout" => .ok (.out, m)
  | "/dev/stderr" => .ok (.err, m)
  | path =>
    match Utility.writable m.world path with
    | .error "Is a directory" => .error ("cannot create " ++ path ++ ": Is a directory")
    | .error _ => .error ("cannot create " ++ path ++ ": Directory nonexistent")
    | .ok place =>
      match direction, m.world.files.get? place with
      | .append, some _ => .ok (.file place, m)
      | _, some (.file _ executable) =>
        .ok (.file place, m.setFiles (m.world.files.put place (.file [] executable)))
      | _, _ => .ok (.file place, m.setFiles (m.world.files.put place (.file [] false)))

/-- The streams and the machine after one redirection to a target. -/
def redirect (s : Streams) (m : Machine) (descriptor : Nat) (direction : Direction)
    (target : String) : Except String (Streams × Machine) :=
  match direction with
  | .here => .ok (s, { m with input := target.toList })
  | .read =>
    if target = "/dev/null" then .ok (s, { m with input := [] })
    else match m.world.bytes ⟨target⟩ with
      | .ok bytes => .ok (s, { m with input := Text.Utf8.decodeLossy bytes })
      | .error _ => .error ("cannot open " ++ target ++ ": No such file")
  | .duplicate =>
    let sink := if target = "1" then s.out else if target = "2" then s.err else .nothing
    .ok (if descriptor = 1 then { s with out := sink }
      else if descriptor = 2 then { s with err := sink } else s, m)
  | .write | .append =>
    match openSink m direction target with
    | .ok (sink, m) =>
      .ok (if descriptor = 1 then { s with out := sink }
        else if descriptor = 2 then { s with err := sink } else s, m)
    | .error text => .error text

def withHome (m : Machine) (w : Word) : Word :=
  let home := Piece.text true ((m.get? "HOME").getD "~").toList
  match w with
  | [.text false ['~']] => [home]
  | .text false ['~'] :: .text false ['/'] :: rest => home :: .text false ['/'] :: rest
  | w => w

mutual

def expandPiece : Nat → Streams → Bool → Splitting → Machine → Piece → Splitting × Machine
  | 0, _, _, acc, m, _ => (acc, m.stop .timeout)
  | fuel + 1, s, split, acc, m, piece =>
    match piece with
    | .text quoted cs => (acc.add (cs.map fun c => (quoted, c)), m)
    | .number quoted e =>
      let (text, m) := expandText fuel s m (quotedWordOf e)
      (acc.addText quoted split (toString (calculate m text)).toList, m)
    | .output quoted script =>
      let (text, m) := capture fuel s m script
      (acc.addText quoted split text, m)
    | .parameter quoted text =>
      match parameterParts text with
      | (['@'], .keep) =>
        if quoted then (acc.addApart m.arguments, m)
        else (m.arguments.foldl (fun acc a => (acc.addText false split a.toList).close) acc, m)
      | (name, change) =>
        let (value, m) := changed fuel s m name change
        (acc.addText quoted split value, m)

def changed : Nat → Streams → Machine → List Char → Change → List Char × Machine
  | 0, _, m, _, _ => ([], m.stop .timeout)
  | fuel + 1, s, m, name, change =>
    let value? := m.value? name
    let value := (value?.getD "").toList
    match change with
    | .keep => (value, m)
    | .length => ((toString value.length).toList, m)
    | .cut atEnd longest pattern =>
      let (marks, m) := expandMarks fuel s m (wordOf pattern)
      (cutValue atEnd longest marks value, m)
    | .fallback blankToo action word =>
      let absent := value?.isNone || (blankToo && value.isEmpty)
      match action, absent with
      | '+', true => ([], m)
      | '+', false => expandText fuel s m (wordOf word)
      | _, false => (value, m)
      | '=', true =>
        let (text, m) := expandText fuel s m (wordOf word)
        (text, m.set (String.ofList name) (String.ofList text))
      | '?', true =>
        let (text, m) := expandText fuel s m (wordOf word)
        let text := if text.isEmpty then "parameter not set" else String.ofList text
        ([], (m.report s 1 (String.ofList name ++ ": " ++ text) 2).stop .exit)
      | _, true => expandText fuel s m (wordOf word)

/-- A word as one piece of text whose quoted characters are marked. -/
def expandMarks : Nat → Streams → Machine → Word → List Mark × Machine
  | 0, _, m, _ => ([], m.stop .timeout)
  | fuel + 1, s, m, w =>
    let (acc, m) := (withHome m w).foldl (fun (acc, m) piece => expandPiece fuel s false acc m piece) (.start, m)
    (acc.joined, m)

def expandText : Nat → Streams → Machine → Word → List Char × Machine
  | 0, _, m, _ => ([], m.stop .timeout)
  | fuel + 1, s, m, w =>
    let (marks, m) := expandMarks fuel s m w
    (markText marks, m)

def expandFields : Nat → Streams → Machine → Word → List String × Machine
  | 0, _, m, _ => ([], m.stop .timeout)
  | fuel + 1, s, m, w =>
    let (acc, m) := (withHome m w).foldl (fun (acc, m) piece => expandPiece fuel s true acc m piece) (.start, m)
    (acc.fields.flatMap (globbed m.world), m)

def expandAll : Nat → Streams → Machine → List Word → List String × Machine
  | 0, _, m, _ => ([], m.stop .timeout)
  | fuel + 1, s, m, ws =>
    ws.foldl (fun (fields, m) w =>
      let (more, m) := expandFields fuel s m w
      (fields ++ more, m)) ([], m)

def capture : Nat → Streams → Machine → List Char → List Char × Machine
  | 0, _, m, _ => ([], m.stop .timeout)
  | fuel + 1, s, m, script =>
    match read? script with
    | none => ([], (m.report s 1 "Syntax error" 2).stop .exit)
    | some commands =>
      let inner := runAll fuel { s with out := .out } { m with out := [] } commands
      (dropNewlines inner.out, { m.afterSubshell inner with out := m.out })

def openAll :
    Nat → Streams → Machine → List Redirect → Except (String × Machine) (Streams × Machine)
  | 0, _, m, _ => .error ("", m.stop .timeout)
  | fuel + 1, s, m, rs =>
    rs.foldl (fun result r =>
      match result with
      | .error e => .error e
      | .ok (s, m) =>
        let (target, m) := expandText fuel s m r.target
        match redirect s m r.descriptor r.direction (String.ofList target) with
        | .ok opened => .ok opened
        | .error text => .error (text, m)) (.ok (s, m))

def runAll : Nat → Streams → Machine → List Command → Machine
  | 0, _, m, _ => m.stop .timeout
  | fuel + 1, s, m, cs => cs.foldl (fun m c => if m.isStopped then m else run fuel s m c) m

def run : Nat → Streams → Machine → Command → Machine
  | 0, _, m, _ => m.stop .timeout
  | fuel + 1, s, m, command =>
    let asked : Streams := { s with tested := true }
    match command with
    | .simple line assignments words =>
      let (fields, m) := expandAll fuel s m words
      let before := m
      let (m, replaced) := assignments.foldl (fun (m, replaced) (name, w) =>
        let (text, m) := expandText fuel s m w
        (m.set name (String.ofList text), replaced || w.any fun p => match p with
          | .output _ _ => true
          | _ => false)) (m, false)
      if m.isStopped then m
      else match fields with
        | [] => ((if replaced then m else m.done 0)).settle s
        | name :: args =>
          if assignments.isEmpty then (call fuel s line m name args).settle s
          else
            let names := assignments.map Prod.fst
            ((call fuel s line { m with exported := m.exported ++ names } name args).restore before
              names).settle s
    | .redirected line c rs =>
      match openAll fuel s m rs with
      | .ok (inner, opened) =>
        let reads := rs.any fun r => r.descriptor == 0
        let result := run fuel inner opened c
        if reads then { result with input := m.input } else result
      | .error (text, m) => if m.isStopped then m else (m.report s line text 2).settle s
    | .pipe parts => (runPipe fuel s m parts).settle s
    | .negated c =>
      let m := run fuel asked m c
      if m.isStopped then m else m.done (if m.status = 0 then 1 else 0)
    | .both a b =>
      let m := run fuel asked m a
      if m.isStopped || m.status != 0 then m else run fuel s m b
    | .either a b =>
      let m := run fuel asked m a
      if m.isStopped || m.status == 0 then m else run fuel s m b
    | .group body => runAll fuel s m body
    | .subshell body => (m.afterSubshell (runAll fuel s m body)).settle s
    | .choice condition body otherwise =>
      let m := runAll fuel asked m condition
      if m.isStopped then m
      else if m.status = 0 then runAll fuel s (m.done 0) body
      else runAll fuel s (m.done 0) otherwise
    | .loop wanted condition body => turnWhile fuel s (m.done 0) wanted condition body 0
    | .each name words body =>
      let (fields, m) := expandAll fuel s m words
      turnEach fuel s (m.done 0) name body fields
    | .select w arms =>
      let (text, m) := expandText fuel s m w
      chooseArm fuel s (m.done 0) text arms
    | .define name body => { m with functions := (name, body) :: m.functions, status := 0 }

def runPipe : Nat → Streams → Machine → List Command → Machine
  | 0, _, m, _ => m.stop .timeout
  | _, _, m, [] => m
  | fuel + 1, s, m, [c] => { m.afterSubshell (run fuel s m c) with input := m.input }
  | fuel + 1, s, m, c :: cs =>
    let inner := run fuel { s with out := .out, tested := true } { m with out := [] } c
    let after := { m.afterSubshell inner with out := m.out, input := inner.out }
    if after.isStopped then after else { runPipe fuel s after cs with input := m.input }

def turnWhile : Nat → Streams → Machine → Bool → List Command → List Command → Nat → Machine
  | 0, _, m, _, _, _, _ => m.stop .timeout
  | fuel + 1, s, m, wanted, condition, body, status =>
    let m := runAll fuel { s with tested := true } m condition
    if m.isStopped then m.endTurn.1
    else if (m.status == 0) != wanted then m.done status
    else
      let (m, goesOn) := (runAll fuel s m body).endTurn
      if goesOn then turnWhile fuel s m wanted condition body m.status else m

def turnEach : Nat → Streams → Machine → String → List Command → List String → Machine
  | 0, _, m, _, _, _ => m.stop .timeout
  | _, _, m, _, _, [] => m
  | fuel + 1, s, m, name, body, value :: values =>
    let (m, goesOn) := (runAll fuel s (m.set name value) body).endTurn
    if goesOn then turnEach fuel s m name body values else m

def chooseArm : Nat → Streams → Machine → List Char → List (List Word × List Command) → Machine
  | 0, _, m, _, _ => m.stop .timeout
  | _, _, m, _, [] => m
  | fuel + 1, s, m, text, (patterns, body) :: arms =>
    let (hit, m) := patterns.foldl (fun (hit, m) p =>
      let (marks, m) := expandMarks fuel s m p
      (hit || fits marks text, m)) (false, m)
    if hit then runAll fuel s m body else chooseArm fuel s m text arms

def call : Nat → Streams → Nat → Machine → String → List String → Machine
  | 0, _, _, m, _, _ => m.stop .timeout
  | fuel + 1, s, line, m, name, args =>
    match m.functions.find? fun f => f.1 == name with
    | some (_, body) =>
      let inner := run fuel s { m with arguments := args } body
      { inner with
        arguments := m.arguments
        halt := if inner.halt = some .leaveFunction then none else inner.halt }
    | none =>
      match name with
      | "exit" => m.exitWith args .exit
      | "return" => m.exitWith args .leaveFunction
      | "break" => (m.done 0).stop (.leaveLoop (Machine.levels args))
      | "continue" => (m.done 0).stop (.nextTurn (Machine.levels args))
      | "shift" => { m with arguments := m.arguments.drop (Machine.levels args), status := 0 }
      | "set" => (m.setOptions args).done 0
      | "export" => m.declare true args
      | "readonly" | "local" => m.declare false args
      | "unset" => (args.foldl Machine.unset m).done 0
      | "cd" => m.changeDirectory s line args
      | "read" => m.readLine args
      | "kill" => m.kill s line args
      | "trap" | "umask" | "wait" | "hash" | "alias" | "ulimit" => m.done 0
      | "eval" => runText fuel s m (String.intercalate " " args).toList
      | "." =>
        match args with
        | path :: _ =>
          match m.world.bytes ⟨path⟩ with
          | .ok bytes => runText fuel s m (Text.Utf8.decodeLossy bytes)
          | .error _ => (m.report s line (".: cannot open " ++ path ++ ": No such file") 2).stop .exit
        | [] => m.done 0
      | "exec" =>
        match args with
        | program :: rest =>
          let m := external fuel s line m program rest
          if m.isStopped then m else m.stop .exit
        | [] => m.done 0
      | "command" =>
        match args with
        | "-v" :: wanted :: _ =>
          match Program.find m.world (m.get? "PATH") wanted with
          | .program _ => (m.say s (wanted ++ "\n")).done 0
          | _ => m.done 127
        | program :: rest => call fuel s line { m with functions := [] } program rest
        | [] => m.done 0
      | name =>
        match Utility.builtin? name with
        | some u => u m s args
        | none => external fuel s line m name args

def runText : Nat → Streams → Machine → List Char → Machine
  | 0, _, m, _ => m.stop .timeout
  | fuel + 1, s, m, text =>
    match read? text with
    | some commands => runAll fuel s (m.done 0) commands
    | none => (m.report s 1 "Syntax error" 2).stop .exit

def external : Nat → Streams → Nat → Machine → String → List String → Machine
  | 0, _, _, m, _, _ => m.stop .timeout
  | fuel + 1, s, line, m, name, args =>
    match Program.find m.world (m.get? "PATH") name with
    | .missing => m.report s line (name ++ ": not found") 127
    | .denied => m.report s line (name ++ ": Permission denied") 126
    | .program p =>
      let result := m.afterSubshell (launch fuel s m.child name p args)
      if result.halt = some .signal then { result with halt := none, status := 137 } else result

def launch : Nat → Streams → Machine → String → Program → List String → Machine
  | 0, _, m, _, _, _ => m.stop .timeout
  | fuel + 1, s, m, name, program, args =>
    match program with
    | .utility u => u m s args
    | .shell =>
      match args with
      | "-c" :: script :: rest =>
        runText fuel s { m with name := rest.headD name, arguments := rest.tail } script.toList
      | flag :: rest =>
        if flag.toList.head? = some '-' then launch fuel s (m.setOptions [flag]) name .shell rest
        else match m.world.bytes ⟨flag⟩ with
          | .ok bytes => runText fuel s { m with name := flag, arguments := rest } (Text.Utf8.decodeLossy bytes)
          | .error _ => m.complain s (name ++ ": 0: cannot open " ++ flag ++ ": No such file") 2
      | [] => runText fuel s { m with name } m.input
    | .env =>
      match args with
      | [] => Utility.printenv m s []
      | arg :: rest =>
        if arg.toList.contains '=' then launch fuel s (m.declare true [arg]) name .env rest
        else match Program.find m.world (m.get? "PATH") arg with
          | .program p => launch fuel s m arg p rest
          | _ => m.complain s ("env: ‘" ++ arg ++ "’: No such file or directory") 127
    | .script text none => runText fuel s { m with name, arguments := args } text
    | .script text (some words) =>
      match words with
      | interpreter :: more =>
        match Program.atPath m.world ⟨interpreter⟩ with
        | .program .shell =>
          runText fuel s ({ m with name, arguments := args }.setOptions more) text
        | .program .env =>
          match more with
          | wanted :: _ =>
            if Program.shells.contains wanted then runText fuel s { m with name, arguments := args } text
            else m.complain s ("env: ‘" ++ wanted ++ "’: No such file or directory") 127
          | [] => Utility.printenv m s []
        | .program p => launch fuel s m interpreter p (more ++ name :: args)
        | _ => m.complain s (name ++ ": not found") 127
      | [] => m.done 0

end

def allowance : Nat := 10000

end CookbookAtlas.Shell

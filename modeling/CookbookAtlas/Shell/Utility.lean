import CookbookAtlas.Shell.Expand
import CookbookAtlas.Total

/-! Utilities that scripts call. Each gets its arguments and leaves its status. -/
namespace CookbookAtlas.Shell

open Text

abbrev Utility := Machine → Streams → List String → Machine

namespace Utility

def octal? (c : Char) : Option Nat :=
  if decide ('0' ≤ c) && decide (c ≤ '7') then some (c.toNat - '0'.toNat) else none

def octalDigits (cs : List Char) : List Nat :=
  ((cs.take 3).takeWhile fun c => (octal? c).isSome).filterMap octal?

def simpleEscape? : Char → Option Char
  | 'a' => some '\x07'
  | 'b' => some '\x08'
  | 'f' => some '\x0c'
  | 'n' => some '\n'
  | 'r' => some '\r'
  | 't' => some '\t'
  | 'v' => some '\x0b'
  | '\\' => some '\\'
  | _ => none

/-- A text with its backslash escapes replaced, and whether it goes on after them. -/
def escaped : List Char → List Char × Bool
  | [] => ([], true)
  | '\\' :: 'c' :: _ => ([], false)
  | '\\' :: d :: cs =>
    if d = '0' then
      let digits := octalDigits cs
      let (rest, goesOn) := escaped (cs.drop digits.length)
      (Char.ofNat (digits.foldl (fun n k => n * 8 + k) 0) :: rest, goesOn)
    else
      let (rest, goesOn) := escaped cs
      match simpleEscape? d with
      | some c => (c :: rest, goesOn)
      | none => ('\\' :: d :: rest, goesOn)
  | c :: cs =>
    let (rest, goesOn) := escaped cs
    (c :: rest, goesOn)
termination_by cs => cs.length
decreasing_by all_goals simp only [List.length_drop, List.length_cons]; omega

def echo : Utility := fun m s args =>
  let (newline, args) := match args with
    | "-n" :: rest => (false, rest)
    | args => (true, args)
  let (text, goesOn) := escaped (String.intercalate " " args).toList
  (m.write s.out (if newline && goesOn then text ++ ['\n'] else text)).done 0

def echoProgram : Utility := fun m s args =>
  match args with
  | "-n" :: rest => (m.say s (String.intercalate " " rest)).done 0
  | "-e" :: rest => echo m s rest
  | args => (m.say s (String.intercalate " " args ++ "\n")).done 0

def numberOf (text : String) : Int := (text.toInt?).getD 0

def formatEscape (cs : List Char) : Char × List Char :=
  match cs with
  | d :: rest =>
    match simpleEscape? d with
    | some c => (c, rest)
    | none =>
      let digits := octalDigits cs
      if digits.isEmpty then ('\\', cs)
      else (Char.ofNat (digits.foldl (fun n k => n * 8 + k) 0), cs.drop digits.length)
  | [] => ('\\', [])

/-- A field filled up with blanks or zeros to its width. -/
def padded (flags : List Char) (text : List Char) : List Char :=
  let left := flags.contains '-'
  let digits := flags.filter isAsciiDigit
  let width := ((String.ofList digits).toNat?).getD 0
  let fill := List.replicate (width - text.length) (if digits.head? == some '0' && !left then '0'
    else ' ')
  if left then text ++ fill else fill ++ text

def formatted : Nat → List Char → List String → List Char × List String
  | 0, _, args | _, [], args => ([], args)
  | fuel + 1, '\\' :: cs, args =>
    let (c, rest) := formatEscape cs
    let (text, args) := formatted fuel rest args
    (c :: text, args)
  | fuel + 1, '%' :: '%' :: cs, args =>
    let (text, args) := formatted fuel cs args
    ('%' :: text, args)
  | fuel + 1, '%' :: cs, args =>
    let flags := cs.takeWhile fun c => isAsciiDigit c || c == '-' || c == '+'
    match cs.drop flags.length with
    | kind :: rest =>
      let value := args.headD ""
      let piece := match kind with
        | 's' => value.toList
        | 'b' => (escaped value.toList).1
        | 'd' | 'i' | 'u' => (toString (numberOf value)).toList
        | 'c' => value.toList.take 1
        | kind => '%' :: flags ++ [kind]
      let (text, args) := formatted fuel rest args.tail
      (padded flags piece ++ text, args)
    | [] => ('%' :: flags, args)
  | fuel + 1, c :: cs, args =>
    let (text, args) := formatted fuel cs args
    (c :: text, args)

def formattedAll (format : List Char) : Nat → List String → List Char
  | 0, _ => []
  | fuel + 1, args =>
    let (text, rest) := formatted (format.length + 1) format args
    if rest.isEmpty || rest.length == args.length then text
    else text ++ formattedAll format fuel rest

def printf : Utility := fun m s args =>
  match args with
  | [] => m.complain s "printf: usage: printf format [arg ...]" 2
  | format :: rest => (m.write s.out (formattedAll format.toList (rest.length + 1) rest)).done 0

def fileTest (w : World) (flag : Char) (path : String) : Bool :=
  let entry := (w.entry ⟨path⟩).toOption
  match flag with
  | 'e' | 'r' | 'w' | 'a' => entry.isSome
  | 'd' => entry.any Files.Entry.isDirectory
  | 'f' => entry.any fun e => !e.isDirectory
  | 'x' => entry.any fun e => match e with
    | .directory => true
    | .file _ executable => executable
  | 's' => entry.any fun e => match e with
    | .directory => true
    | .file bytes _ => !bytes.isEmpty
  | _ => false

def unary? (w : World) (op value : String) : Option Bool :=
  match op with
  | "-n" => some (!value.isEmpty)
  | "-z" => some value.isEmpty
  | "-t" => some false
  | op =>
    match op.toList with
    | ['-', c] => if "edfrwxsLhp".toList.contains c then some (fileTest w c value) else none
    | _ => none

def binary? (a op b : String) : Option Bool :=
  match op with
  | "=" | "==" => some (a == b)
  | "!=" => some (a != b)
  | "-eq" => some (numberOf a == numberOf b)
  | "-ne" => some (numberOf a != numberOf b)
  | "-lt" => some (decide (numberOf a < numberOf b))
  | "-le" => some (decide (numberOf a ≤ numberOf b))
  | "-gt" => some (decide (numberOf a > numberOf b))
  | "-ge" => some (decide (numberOf a ≥ numberOf b))
  | _ => none

mutual

def primary (w : World) : Nat → List String → Option (Bool × List String)
  | 0, _ => none
  | fuel + 1, a :: op :: b :: rest =>
    match binary? a op b with
    | some v => some (v, rest)
    | none => primaryShort w fuel (a :: op :: b :: rest)
  | fuel + 1, args => primaryShort w fuel args

def primaryShort (w : World) : Nat → List String → Option (Bool × List String)
  | 0, _ | _, [] => none
  | _, [a] => some (!a.isEmpty, [])
  | fuel + 1, "!" :: rest => (primary w fuel rest).map fun (v, rest) => (!v, rest)
  | fuel + 1, "(" :: rest =>
    match anyOf w fuel rest with
    | some (v, ")" :: rest) => some (v, rest)
    | _ => none
  | _, op :: value :: rest =>
    match unary? w op value with
    | some v => some (v, rest)
    | none => some (!op.isEmpty, value :: rest)

def allOf (w : World) : Nat → List String → Option (Bool × List String)
  | 0, _ => none
  | fuel + 1, args =>
    match primary w fuel args with
    | some (v, "-a" :: rest) => (allOf w fuel rest).map fun (u, rest) => (v && u, rest)
    | result => result

def anyOf (w : World) : Nat → List String → Option (Bool × List String)
  | 0, _ => none
  | fuel + 1, args =>
    match allOf w fuel args with
    | some (v, "-o" :: rest) => (anyOf w fuel rest).map fun (u, rest) => (v || u, rest)
    | result => result

end

def test : Utility := fun m s args =>
  match args with
  | [] => m.done 1
  | args =>
    match anyOf m.world (4 * args.length + 4) args with
    | some (v, []) => m.done (if v then 0 else 1)
    | _ => m.complain s (m.name ++ ": test: unexpected operator") 2

def bracket : Utility := fun m s args =>
  if args.getLast? = some "]" then test m s args.dropLast
  else m.complain s (m.name ++ ": [: missing ]") 2

def options : List String → List Char × List String
  | [] => ([], [])
  | arg :: rest =>
    match arg.toList with
    | ['-', '-'] => ([], rest)
    | '-' :: c :: cs =>
      let (more, operands) := options rest
      (c :: cs ++ more, operands)
    | _ => ([], arg :: rest)

def faultText : SystemFault → String
  | .notFound => "No such file or directory"
  | .permissionDenied => "Permission denied"
  | .other => "Not a directory"

/-- Does one thing after another and remembers a failure. -/
def eachOf (f : Machine → String → Machine) (m : Machine) (args : List String) : Machine :=
  let (m, status) := args.foldl (fun (m, status) arg =>
    let m := f (m.done 0) arg
    (m, if m.status = 0 then status else m.status)) (m, 0)
  m.done status

def makeDirectory (withParents : Bool) (s : Streams) (m : Machine) (path : String) : Machine :=
  let w := m.world
  let refuse (text : String) := m.complain s ("mkdir: cannot create directory ‘" ++ path ++ "’: " ++ text) 1
  if withParents then
    if w.isFile ⟨path⟩ then refuse "File exists"
    else match World.makeOnWay w.files w.here (Path.components ⟨path⟩) with
      | (files, none) => if path.isEmpty then refuse "No such file or directory" else m.setFiles files
      | (files, some fault) => (refuse (faultText fault)).setFiles files
  else match w.entry ⟨path⟩, w.place ⟨path⟩ with
    | .ok _, _ => refuse "File exists"
    | _, .error fault => refuse (faultText fault)
    | _, .ok place =>
      match w.files.get? place.dropLast with
      | some .directory => m.setFiles (w.files.put place .directory)
      | _ => refuse "No such file or directory"

def mkdir : Utility := fun m s args =>
  let (flags, paths) := options args
  if paths.isEmpty then m.complain s "mkdir: missing operand" 1
  else eachOf (makeDirectory (flags.contains 'p') s) m paths

def writable (w : World) (path : String) : Except String Files.Place :=
  match w.place ⟨path⟩ with
  | .error fault => .error (faultText fault)
  | .ok place =>
    match w.files.get? place, w.files.get? place.dropLast with
    | some .directory, _ => .error "Is a directory"
    | _, some .directory => .ok place
    | _, _ => .error "No such file or directory"

def touch : Utility := fun m s args =>
  eachOf (fun m path =>
    if m.world.has ⟨path⟩ then m
    else match writable m.world path with
      | .ok place => m.setFiles (m.world.files.put place (.file [] false))
      | .error text =>
        m.complain s ("touch: cannot touch '" ++ path ++ "': " ++ text) 1) m (options args).2

def cat : Utility := fun m s args =>
  let paths := (options args).2
  if paths.isEmpty then ({ m.write s.out m.input with input := [] }).done 0
  else eachOf (fun m path =>
    if path = "-" then { m.write s.out m.input with input := [] }
    else match m.world.entry ⟨path⟩ with
      | .ok (.file bytes _) => m.write s.out (Text.Utf8.decodeLossy bytes)
      | .ok .directory => m.complain s ("cat: " ++ path ++ ": Is a directory") 1
      | .error fault => m.complain s ("cat: " ++ path ++ ": " ++ faultText fault) 1) m paths

def rm : Utility := fun m s args =>
  let (flags, paths) := options args
  let deep := flags.contains 'r' || flags.contains 'R'
  eachOf (fun m path =>
    let refuse (text : String) := m.complain s ("rm: cannot remove '" ++ path ++ "': " ++ text) 1
    match m.world.entry ⟨path⟩, m.world.place ⟨path⟩ with
    | .ok e, .ok place =>
      if e.isDirectory && !deep then refuse "Is a directory"
      else m.setFiles (m.world.files.remove place)
    | _, _ => if flags.contains 'f' then m else refuse "No such file or directory") m paths

def rmdir : Utility := fun m s args =>
  eachOf (fun m path =>
    let refuse (text : String) := m.complain s ("rmdir: failed to remove '" ++ path ++ "': " ++ text) 1
    match m.world.entry ⟨path⟩, m.world.place ⟨path⟩ with
    | .ok .directory, .ok place =>
      if (m.world.files.names place).isEmpty then m.setFiles (m.world.files.remove place)
      else refuse "Directory not empty"
    | .ok _, _ => refuse "Not a directory"
    | _, _ => refuse "No such file or directory") m (options args).2

def copyTo (files : Files.Tree) (source target : Files.Place) : Files.Tree :=
  match files.get? source with
  | none => files
  | some e => (files.below source).foldl (fun t b => t.put (target ++ b.1) b.2) (files.put target e)

def transfer (tool : String) (deep remove : Bool) : Utility := fun m s args =>
  match args.getLast?, args.dropLast with
  | some target, sources@(_ :: _) =>
    eachOf (fun m source =>
      let w := m.world
      let name := ((Path.mk source).fileName?).getD source
      let destination : Path := if w.isDirectory ⟨target⟩ then (Path.mk target).child name else ⟨target⟩
      match w.entry ⟨source⟩, w.place ⟨source⟩, w.place destination with
      | .ok e, .ok place, .ok goal =>
        if e.isDirectory && !deep then
          m.complain s (tool ++ ": -r not specified; omitting directory '" ++ source ++ "'") 1
        else if (w.files.get? goal.dropLast).any Files.Entry.isDirectory then
          let files := copyTo w.files place goal
          m.setFiles (if remove then files.remove place else files)
        else m.complain s (tool ++ ": cannot create regular file '" ++ target ++ "': No such file or directory") 1
      | _, _, _ => m.complain s (tool ++ ": cannot stat '" ++ source ++ "': No such file or directory") 1)
      m sources
  | _, _ => m.complain s (tool ++ ": missing file operand") 1

def cp : Utility := fun m s args =>
  let (flags, operands) := options args
  transfer "cp" (flags.any fun c => c == 'r' || c == 'R' || c == 'a') false m s operands

def mv : Utility := fun m s args => transfer "mv" true true m s (options args).2

def ls : Utility := fun m s args =>
  let (flags, paths) := options args
  let shown (names : List String) := if flags.contains 'a' then "." :: ".." :: names
    else if flags.contains 'A' then names
    else names.filter fun n => n.toList.head? != some '.'
  let titled := paths.length > 1
  eachOf (fun m path =>
    match m.world.entry ⟨path⟩, m.world.names ⟨path⟩ with
    | .ok .directory, .ok names =>
      let title := if titled then path ++ ":\n" else ""
      m.say s (title ++ String.join ((shown names).map (· ++ "\n")))
    | .ok (.file _ _), _ => m.say s (path ++ "\n")
    | _, _ => m.complain s ("ls: cannot access '" ++ path ++ "': No such file or directory") 2)
    m (if paths.isEmpty then ["."] else paths)

def chmod : Utility := fun m s args =>
  match args with
  | mode :: paths =>
    let on := hasPart mode "+x" || (mode.toList.head?.any fun c => c == '7' || c == '5')
    eachOf (fun m path =>
      match m.world.entry ⟨path⟩, m.world.place ⟨path⟩ with
      | .ok (.file bytes _), .ok place => m.setFiles (m.world.files.put place (.file bytes on))
      | .ok .directory, _ => m
      | _, _ =>
        m.complain s ("chmod: cannot access '" ++ path ++ "': No such file or directory") 1) m paths
  | [] => m.complain s "chmod: missing operand" 1

def basename : Utility := fun m s args =>
  match args with
  | path :: rest =>
    let name := ((Path.mk path).fileName?).getD (if path.isEmpty then "" else "/")
    let name := match rest with
      | suffix :: _ =>
        if name.endsWith suffix && name != suffix then (name.dropEnd suffix.length).toString else name
      | [] => name
    (m.say s (name ++ "\n")).done 0
  | [] => m.complain s "basename: missing operand" 1

def dirname : Utility := fun m s args =>
  match args with
  | path :: _ =>
    let dir := ((Path.mk path).parent?.map Path.text).getD (if (Path.mk path).isAbsolute then "/"
      else ".")
    (m.say s ((if dir.isEmpty then "." else dir) ++ "\n")).done 0
  | [] => m.complain s "dirname: missing operand" 1

def milliseconds? (text : String) : Option Nat :=
  let parts := text.splitOn "."
  match parts with
  | [whole] => whole.toNat?.map (· * 1000)
  | [whole, places] =>
    let shown := (places.toList ++ ['0', '0', '0']).take 3
    if (whole.toList ++ places.toList).all isAsciiDigit then
      some (((String.ofList whole.toList).toNat?).getD 0 * 1000 + ((String.ofList shown).toNat?).getD 0)
    else none
  | _ => none

def sleep : Utility := fun m s args =>
  match args with
  | [] => m.complain s "sleep: missing operand" 1
  | args =>
    match args.mapM fun a =>
        match a.toList.getLast? with
        | some 's' => milliseconds? (String.ofList a.toList.dropLast)
        | some 'm' => (milliseconds? (String.ofList a.toList.dropLast)).map (· * 60)
        | _ => milliseconds? a with
    | some times => m.sleep (total times)
    | none => m.complain s ("sleep: invalid time interval ‘" ++ args.headD "" ++ "’") 1

def lines (input : List Char) : List (List Char) := Text.lines input

def inputOf (m : Machine) (paths : List String) : List Char :=
  if paths.isEmpty then m.input
  else paths.flatMap fun p => match m.world.bytes ⟨p⟩ with
    | .ok bytes => Text.Utf8.decodeLossy bytes
    | .error _ => []

def lineCount (flags : List String) : Nat × List String :=
  match flags with
  | "-n" :: n :: rest => (n.toNat?.getD 10, rest)
  | arg :: rest =>
    match arg.toList with
    | '-' :: 'n' :: digits | '-' :: digits => ((String.ofList digits).toNat?.getD 10, rest)
    | _ => (10, arg :: rest)
  | [] => (10, [])

def sayLines (m : Machine) (s : Streams) (rows : List (List Char)) : Machine :=
  (m.write s.out (rows.flatMap (· ++ ['\n']))).done 0

def head : Utility := fun m s args =>
  let (n, paths) := lineCount args
  sayLines m s ((lines (inputOf m paths)).take n)

def tail : Utility := fun m s args =>
  let (n, paths) := lineCount args
  let rows := lines (inputOf m paths)
  sayLines m s (rows.drop (rows.length - n))

def sort : Utility := fun m s args =>
  let (flags, paths) := options args
  let rows := ((lines (inputOf m paths)).map String.ofList).mergeSort fun a b => decide (a ≤ b)
  let rows := if flags.contains 'u' then rows.eraseDups else rows
  sayLines m s ((if flags.contains 'r' then rows.reverse else rows).map String.toList)

/-- Fixed texts are looked for, and the marks for the ends of a line. -/
def grep : Utility := fun m s args =>
  let (flags, operands) := options args
  match operands with
  | pattern :: paths =>
    let atStart := pattern.toList.head? == some '^'
    let atEnd := pattern.toList.getLast? == some '$'
    let core := if atStart then pattern.toList.drop 1 else pattern.toList
    let core := if atEnd then core.dropLast else core
    let hit (row : List Char) : Bool :=
      if atStart && atEnd then row == core
      else if atStart then core.isPrefixOf row
      else if atEnd then core.isSuffixOf row
      else occursIn core row
    let rows := (lines (inputOf m paths)).filter fun row => hit row != flags.contains 'v'
    let m := if flags.contains 'q' then m
      else if flags.contains 'c' then m.say s (toString rows.length ++ "\n")
      else sayLines m s rows
    m.done (if rows.isEmpty then 1 else 0)
  | [] => m.complain s "grep: missing pattern" 2

def wc : Utility := fun m s args =>
  let (flags, paths) := options args
  let text := inputOf m paths
  let counts := [('l', text.count '\n'), ('w', (words text).length), ('c', byteLength text)]
  let wanted := counts.filter fun c => flags.isEmpty || flags.contains c.1
  (m.say s (String.intercalate " " (wanted.map fun c => toString c.2) ++
    String.join (paths.map (" " ++ ·)) ++ "\n")).done 0

def pwd : Utility := fun m s _ => (m.say s (m.here ++ "\n")).done 0

def succeed : Utility := fun m _ _ => m.done 0

def fail : Utility := fun m _ _ => m.done 1

def printenv : Utility := fun m s args =>
  match args with
  | [] => (m.say s (String.join (m.environment.map fun v => v.1 ++ "=" ++ v.2 ++ "\n"))).done 0
  | name :: _ =>
    match (m.environment.find? fun v => v.1 == name) with
    | some v => (m.say s (v.2 ++ "\n")).done 0
    | none => m.done 1

def builtin? : String → Option Utility
  | "echo" => some echo
  | "printf" => some printf
  | "test" => some test
  | "[" => some bracket
  | "true" | ":" => some succeed
  | "false" => some fail
  | "pwd" => some pwd
  | _ => none

def program? : String → Option Utility
  | "echo" => some echoProgram
  | "printf" => some printf
  | "test" => some test
  | "[" => some bracket
  | "true" => some succeed
  | "false" => some fail
  | "pwd" => some pwd
  | "mkdir" => some mkdir
  | "touch" => some touch
  | "cat" => some cat
  | "rm" => some rm
  | "rmdir" => some rmdir
  | "cp" => some cp
  | "mv" => some mv
  | "ls" => some ls
  | "chmod" => some chmod
  | "basename" => some basename
  | "dirname" => some dirname
  | "sleep" => some sleep
  | "head" => some head
  | "tail" => some tail
  | "sort" => some sort
  | "grep" => some grep
  | "wc" => some wc
  | "printenv" => some printenv
  | _ => none

end Utility
end CookbookAtlas.Shell

import CookbookAtlas.Settings.Read

/-! Paths with variables: `$NAME`, `$` with a name in braces and an optional default, and a leading
`~` for the home directory. -/
namespace CookbookAtlas.Settings

def isNameChar (c : Char) : Bool := Text.isAlphanumeric c || c == '_'

/-- The variable and default of a text between braces; the default needs a name before it. -/
def bracedParts (body : List Char) : List Char × Option (List Char) :=
  match Text.splitFirst? [':', '-'] body with
  | some (name, fallback) => if name.isEmpty then (body, none) else (name, some fallback)
  | none => (body, none)

def expandVariables (w : World) : List Char → Except String (List Char)
  | [] => .ok []
  | c :: cs =>
    if c ≠ '$' then (expandVariables w cs).map (c :: ·)
    else match cs with
      | [] => .ok ['$']
      | '$' :: rest => (expandVariables w rest).map ('$' :: ·)
      | '\x7b' :: rest =>
        let body := rest.takeWhile (· ≠ '\x7d')
        if body.length = rest.length then (expandVariables w rest).map ('$' :: '\x7b' :: ·)
        else
          let (name, fallback) := bracedParts body
          match w.setting? (String.ofList name), fallback with
          | some value, _ => (expandVariables w (rest.drop (body.length + 1))).map (value.toList ++ ·)
          | none, some fallback => (expandVariables w (rest.drop (body.length + 1))).map (fallback ++ ·)
          | none, none => .error (String.ofList name)
      | d :: rest =>
        if isNameChar d then
          let name := (d :: rest).takeWhile isNameChar
          match w.setting? (String.ofList name) with
          | some value => (expandVariables w (rest.drop (name.length - 1))).map (value.toList ++ ·)
          | none => .error (String.ofList name)
        else (expandVariables w (d :: rest)).map ('$' :: ·)
termination_by cs => cs.length
decreasing_by all_goals (simp only [List.length_drop, List.length_cons]; omega)

/-- Replaces a leading `~` that stands alone or before a separator. -/
def expandHome (w : World) (cs : List Char) : List Char :=
  match cs with
  | '~' :: rest =>
    if rest.isEmpty || rest.head? == some '/' then
      match home? w with
      | some home => home.toList ++ rest
      | none => cs
    else cs
  | _ => cs

/-- The path that a text stands for. A `~` from a variable is left alone. -/
def expandPath (w : World) (raw : String) : Except Trouble Path :=
  match expandVariables w raw.toList with
  | .error name =>
    .error (((Trouble.of (.note "environment variable not found")).during
      s!"error looking key '{name}' up: environment variable not found").during
      s!"Failed to expand config path '{raw}'")
  | .ok cs => .ok ⟨String.ofList (if raw.toList.head? = some '~' then expandHome w cs else cs)⟩

/-- The settings by an explicit path, by the environment, or by the default place; a file that is
named explicitly has to be there. -/
def find (w : World) (explicit : Option String) : Except Trouble Settings := do
  match explicit with
  | some raw =>
    let path ← expandPath w raw
    if w.has path then ofFile w path
    else throw (.ofFailure (.config s!"config file {path.text} does not exist"))
  | none =>
    let named := (w.setting? fileVariable).filter fun v => !v.isEmpty
    let path? ← match named with
      | some raw => (expandPath w raw).map some
      | none => .ok none
    match path?.filter w.has, (defaultPath? w).filter w.has with
    | some path, _ | none, some path => ofFile w path
    | none, none => return standard

def load (w : World) (explicit : Option String) : Except Trouble Settings :=
  match find w explicit with
  | .ok s => .ok s
  | .error t => .error (t.during "Failed to load configuration")

end CookbookAtlas.Settings

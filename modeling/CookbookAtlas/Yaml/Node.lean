import CookbookAtlas.Yaml.Scan

/-! Nodes of a YAML document. -/
namespace CookbookAtlas.Yaml

structure Marks where
  anchor : Option (List Char)
  tag : Option (List Char)
deriving DecidableEq

def Marks.none : Marks := ⟨.none, .none⟩

inductive Node
  | alias (name : List Char)
  | scalar (marks : Marks) (text : List Char) (plain : Bool)
  | sequence (marks : Marks) (items : List Node)
  | mapping (marks : Marks) (entries : List (Node × Node))

def Node.empty : Node := .scalar .none [] true

abbrev Handles := List (List Char × List Char)

def standardHandles : Handles :=
  [(['!'], ['!']), (['!', '!'], "tag:yaml.org,2002:".toList)]

def tagText? (handles : Handles) (handle suffix : List Char) : Option (List Char) :=
  if handle.isEmpty then some suffix
  else (handles.find? fun h => h.1 == handle).map fun h => h.2 ++ suffix

/-- Anchor and tag in front, each at most once and in either order. -/
def marksOf? (handles : Handles) : List Token → Option (Marks × List Token)
  | .anchor a :: .tag h s :: ts | .tag h s :: .anchor a :: ts =>
    (tagText? handles h s).map fun tag => (⟨some a, some tag⟩, ts)
  | .anchor a :: ts => some (⟨some a, none⟩, ts)
  | .tag h s :: ts => (tagText? handles h s).map fun tag => (⟨none, some tag⟩, ts)
  | ts => some (.none, ts)

def scalarNode (marks : Marks) (text : List Char) (plain : Bool) : Node :=
  .scalar (if marks.tag = some ['!'] then { marks with tag := none } else marks) text plain

def isBlockEntryEnd : Token → Bool
  | .blockEntry | .blockEnd => true
  | _ => false

def isMappingPartEnd : Token → Bool
  | .key | .value | .blockEnd => true
  | _ => false

def isListEntryEnd : Token → Bool
  | .blockEntry | .key | .value | .blockEnd => true
  | _ => false

def isFlowPartEnd (closing : Token) : Token → Bool
  | .value | .flowEntry => true
  | t => t == closing

def isFlowValueEnd (closing : Token) : Token → Bool
  | .flowEntry => true
  | t => t == closing

def afterComma? : List Token → Option (List Token)
  | .flowEntry :: ts => some ts
  | _ => none

mutual

/-- A node. Block collections are read where `block` is set; `listed` allows a sequence that is
indented no more than the key before it. -/
def node (handles : Handles) : Nat → (block listed : Bool) → List Token → Option (Node × List Token)
  | 0, _, _, _ => none
  | fuel + 1, block, listed, ts =>
    match ts with
    | .alias name :: rest => some (.alias name, rest)
    | ts =>
      match marksOf? handles ts with
      | none => none
      | some (marks, ts) =>
        let marked := marks.anchor.isSome || marks.tag.isSome
        match ts with
        | .scalar text plain :: rest => some (scalarNode marks text plain, rest)
        | .flowSequenceStart :: rest =>
          (flowItems handles fuel true rest).map fun (items, rest) => (.sequence marks items, rest)
        | .flowMappingStart :: rest =>
          (flowEntries handles fuel true rest).map fun (entries, rest) => (.mapping marks entries, rest)
        | .blockSequenceStart :: rest =>
          if block then
            (blockItems handles fuel rest).map fun (items, rest) => (.sequence marks items, rest)
          else if marked then some (scalarNode marks [] true, ts) else none
        | .blockMappingStart :: rest =>
          if block then
            (blockEntries handles fuel rest).map fun (entries, rest) => (.mapping marks entries, rest)
          else if marked then some (scalarNode marks [] true, ts) else none
        | .blockEntry :: _ =>
          if listed then
            (listItems handles fuel ts).map fun (items, rest) => (.sequence marks items, rest)
          else if marked then some (scalarNode marks [] true, ts) else none
        | ts => if marked then some (scalarNode marks [] true, ts) else none

/-- A node, or an empty one where `ends` holds of the next token. -/
def nodeUnless (handles : Handles) : Nat → (Token → Bool) → (block listed : Bool) → List Token →
    Option (Node × List Token)
  | 0, _, _, _, _ => none
  | fuel + 1, ends, block, listed, ts =>
    match ts with
    | t :: _ => if ends t then some (.empty, ts) else node handles fuel block listed ts
    | [] => none

def blockItems (handles : Handles) : Nat → List Token → Option (List Node × List Token)
  | 0, _ => none
  | fuel + 1, .blockEntry :: ts =>
    match nodeUnless handles fuel isBlockEntryEnd true false ts with
    | some (n, ts) => (blockItems handles fuel ts).map fun (items, ts) => (n :: items, ts)
    | none => none
  | _, .blockEnd :: ts => some ([], ts)
  | _, _ => none

def listItems (handles : Handles) : Nat → List Token → Option (List Node × List Token)
  | 0, _ => none
  | fuel + 1, .blockEntry :: ts =>
    match nodeUnless handles fuel isListEntryEnd true false ts with
    | some (n, ts) => (listItems handles fuel ts).map fun (items, ts) => (n :: items, ts)
    | none => none
  | _, ts => some ([], ts)

def blockEntries (handles : Handles) : Nat → List Token → Option (List (Node × Node) × List Token)
  | 0, _ => none
  | fuel + 1, .key :: ts =>
    match nodeUnless handles fuel isMappingPartEnd true true ts with
    | some (k, .value :: ts) =>
      match nodeUnless handles fuel isMappingPartEnd true true ts with
      | some (v, ts) => (blockEntries handles fuel ts).map fun (entries, ts) => ((k, v) :: entries, ts)
      | none => none
    | some (k, ts) =>
      (blockEntries handles fuel ts).map fun (entries, ts) => ((k, .empty) :: entries, ts)
    | none => none
  | _, .blockEnd :: ts => some ([], ts)
  | _, _ => none

/-- Items between brackets; each but the first stands after a comma. -/
def flowItems (handles : Handles) : Nat → Bool → List Token → Option (List Node × List Token)
  | 0, _, _ => none
  | _, _, .flowSequenceEnd :: ts => some ([], ts)
  | fuel + 1, first, ts =>
    match (if first then some ts else afterComma? ts) with
    | none => none
    | some (.flowSequenceEnd :: ts) => some ([], ts)
    | some (.key :: ts) =>
      match pair handles fuel ts with
      | some (n, ts) => (flowItems handles fuel false ts).map fun (items, ts) => (n :: items, ts)
      | none => none
    | some ts =>
      match node handles fuel false false ts with
      | some (n, ts) => (flowItems handles fuel false ts).map fun (items, ts) => (n :: items, ts)
      | none => none

def pair (handles : Handles) : Nat → List Token → Option (Node × List Token)
  | 0, _ => none
  | fuel + 1, ts =>
    let read := match ts with
      | t :: rest =>
        if isFlowPartEnd .flowSequenceEnd t then some (Node.empty, rest) else node handles fuel false false ts
      | [] => none
    match read with
    | some (k, .value :: ts) =>
      (nodeUnless handles fuel (isFlowValueEnd .flowSequenceEnd) false false ts).map fun (v, ts) =>
        (.mapping .none [(k, v)], ts)
    | some (k, ts) => some (.mapping .none [(k, .empty)], ts)
    | none => none

def flowEntries (handles : Handles) :
    Nat → Bool → List Token → Option (List (Node × Node) × List Token)
  | 0, _, _ => none
  | _, _, .flowMappingEnd :: ts => some ([], ts)
  | fuel + 1, first, ts =>
    match (if first then some ts else afterComma? ts) with
    | none => none
    | some (.flowMappingEnd :: ts) => some ([], ts)
    | some (.key :: ts) =>
      match nodeUnless handles fuel (isFlowPartEnd .flowMappingEnd) false false ts with
      | some (k, .value :: ts) =>
        match nodeUnless handles fuel (isFlowValueEnd .flowMappingEnd) false false ts with
        | some (v, ts) =>
          (flowEntries handles fuel false ts).map fun (entries, ts) => ((k, v) :: entries, ts)
        | none => none
      | some (k, ts) =>
        (flowEntries handles fuel false ts).map fun (entries, ts) => ((k, .empty) :: entries, ts)
      | none => none
    | some ts =>
      match node handles fuel false false ts with
      | some (k, ts) =>
        (flowEntries handles fuel false ts).map fun (entries, ts) => ((k, .empty) :: entries, ts)
      | none => none

end

/-- Directives in front of a document: the tag handles in force, and the tokens after them. -/
def directives? (versioned : Bool) (own : Handles) : List Token → Option (Handles × List Token)
  | .versionDirective major minor :: ts =>
    if versioned || major != ['1'] || (minor != ['1'] && minor != ['2']) then none
    else directives? true own ts
  | .tagDirective handle lead :: ts =>
    if own.any fun h => h.1 == handle then none
    else directives? versioned (own ++ [(handle, lead)]) ts
  | ts => some (own ++ standardHandles, ts)

def isDirective : Token → Bool
  | .versionDirective _ _ | .tagDirective _ _ => true
  | _ => false

def afterDocument (n : Node) (ts : List Token) : Option Node :=
  if ts.dropWhile (· == .documentEnd) = [.streamEnd] then some n else none

def content (handles : Handles) (fuel : Nat) (ts : List Token) : Option Node :=
  match ts with
  | t :: _ =>
    if isDirective t || t == .documentStart || t == .documentEnd || t == .streamEnd
      then afterDocument .empty ts
    else (node handles fuel true false ts).bind fun (n, ts) => afterDocument n ts
  | [] => none

/-- The only document of a stream; a stream without one has an empty node. -/
def document? (ts : List Token) : Option Node :=
  let fuel := 4 * ts.length + 8
  match ts with
  | [.streamEnd] => some .empty
  | t :: _ =>
    if isDirective t || t == .documentStart then
      match directives? false [] ts with
      | some (handles, .documentStart :: ts) => content handles fuel ts
      | _ => none
    else (node standardHandles fuel true false ts).bind fun (n, ts) => afterDocument n ts
  | [] => none

end CookbookAtlas.Yaml

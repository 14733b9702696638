import CookbookAtlas.CommandLine.Style
import CookbookAtlas.Dependency.Cycle
import CookbookAtlas.Dependency.TreeText
import CookbookAtlas.Json.Printer
import CookbookAtlas.Recipe.View
import CookbookAtlas.Session.Basic

/-! What the commands report, as text and as data. -/
namespace CookbookAtlas.CommandLine

def line (text : String) : String := text ++ "\n"

def titleLine (color : Bool) (cookbook strategy : String) : String :=
  line (styled color .name cookbook ++ " (" ++ strategy ++ ")")

def headingLine (color : Bool) (text : String) : String := line ("\n" ++ styled color .heading text)

structure DependencyReport where
  cookbook : String
  strategy : String
  dependencies : List Dependency.Spec
  found : Strategy.Found
  graph : Option Dependency.Graph

namespace DependencyReport

def ofSession (s : Session) : DependencyReport where
  cookbook := s.name
  strategy := s.strategyName
  dependencies := s.dependencies
  found := s.found
  graph := match s.strategy with
    | some (.policy p) => some (Dependency.Graph.ofRegistry p.registry)
    | _ => none

def cycle? (r : DependencyReport) : Option (List String) := r.graph.bind Dependency.Graph.cycle?

def specData (s : Dependency.Spec) : Datum :=
  .object [("name", .string s.name), ("version", .string s.version),
    ("identifier", .ofOption .string s.identifier)]

def locatedData (l : Strategy.Located) : Datum :=
  .object [("name", .string l.name), ("identifier", .ofOption .string l.identifier),
    ("path", l.path.datum)]

def datum (r : DependencyReport) : Datum :=
  .object ([("cookbook", .string r.cookbook), ("strategy", .string r.strategy),
    ("dependencies", .array (r.dependencies.map specData)),
    ("resolved", .array (r.found.resolved.map locatedData)),
    ("missing", .ofStrings r.found.missing)]
    ++ (r.cycle?.map fun c => ("cycle", Datum.ofStrings c)).toList)

def dependencyLine (color : Bool) (r : DependencyReport) (s : Dependency.Spec) : String :=
  let status := if r.found.missing.contains s.name then styled color .bad " [missing]" else ""
  line ("  " ++ s.name ++ " " ++ styled color .dim s.version ++ status)

def text (color : Bool) (r : DependencyReport) : String :=
  let title := titleLine color r.cookbook r.strategy
  if r.dependencies.isEmpty then title ++ line "No dependencies found."
  else
    let listed := headingLine color "Dependencies:" ++
      String.join (r.dependencies.map (dependencyLine color r))
    let resolved := if r.found.resolved.isEmpty then ""
      else headingLine color "Resolved paths:"
        ++ String.join (r.found.resolved.map fun l => line ("  " ++ l.name ++ " -> " ++ l.path.text))
    let graph := match r.graph with
      | some g => headingLine color "Lock graph:" ++ g.treeText r.cookbook
      | none => ""
    let cycle := match r.cycle? with
      | some c => line ("\n" ++ styled color .warning "Cycle:" ++ " " ++ String.intercalate " -> " c)
      | none => ""
    title ++ listed ++ resolved ++ graph ++ cycle

end DependencyReport

structure SurveyReport where
  cookbook : String
  strategy : String
  missing : List String
  survey : Survey

namespace SurveyReport

def ofSession (s : Session) (survey : Survey) : SurveyReport :=
  ⟨s.name, s.strategyName, s.found.missing, survey⟩

def summaryData (s : Survey.Summary) : Datum :=
  .object [("files", .ofNat s.files), ("recipes", .ofNat s.recipes), ("providers", .ofNat s.providers),
    ("attribute_files", .ofNat s.attributeFiles), ("resources", .ofNat s.resources),
    ("assignments", .ofNat s.assignments), ("references", .ofNat s.references),
    ("loops", .ofNat s.loops), ("collections", .ofNat s.collections)]

def entryData (e : Survey.Entry) : Datum :=
  .object [("path", e.path.datum), ("cookbook", .string e.cookbook), ("kind", .string e.role.word),
    ("parsed", e.parsed.datum)]

def surveyData (s : Survey) : Datum :=
  .object [("files", .array (s.entries.map entryData)), ("attributes", s.attributes),
    ("iterable_collections", .array (s.collections.map fun c =>
      .object [("path", .string c.path), ("items", .ofStrings c.items)]))]

def datum (r : SurveyReport) : Datum :=
  .object [("cookbook", .string r.cookbook), ("strategy", .string r.strategy),
    ("summary", summaryData r.survey.summary), ("missing_dependencies", .ofStrings r.missing),
    ("analysis", surveyData r.survey)]

def text (color : Bool) (r : SurveyReport) : String :=
  let s := r.survey.summary
  let counts :=
    line (s!"  {s.files} file(s): {s.recipes} recipe(s), {s.providers} provider(s), " ++
      s!"{s.attributeFiles} attribute file(s)")
    ++ line (s!"  {s.resources} resource(s), {s.assignments} attribute assignment(s), " ++
      s!"{s.references} reference(s), {s.loops} loop(s)")
  let collections := if r.survey.collections.isEmpty then ""
    else headingLine color "Iterable collections:"
      ++ String.join (r.survey.collections.map fun c =>
        line ("  " ++ styled color .good c.path ++ " [" ++ String.intercalate ", " c.items ++ "]"))
  let missing := if r.missing.isEmpty then ""
    else line ("\n" ++ styled color .warning "Not analyzed:" ++ " " ++ String.intercalate ", " r.missing)
  titleLine color r.cookbook r.strategy ++ counts ++ collections ++ missing

end SurveyReport
end CookbookAtlas.CommandLine

import ValueSyntax.CommandLine.Options
import ValueSyntax.Definitions.Load

namespace ValueSyntax

/-- What a run leaves behind. -/
structure Outcome where
  exit : Nat
  out : String
  err : String
  deriving DecidableEq, Repr

/-- Why a file cannot be read: the system's own reason with its number, or bytes that are no
text. -/
inductive ReadFailure where
  | system (reason : String) (code : Nat)
  | notText
  deriving DecidableEq, Repr

namespace ReadFailure

def notFound : ReadFailure := system "No such file or directory" 2

def denied : ReadFailure := system "Permission denied" 13

def notDirectory : ReadFailure := system "Not a directory" 20

def isDirectory : ReadFailure := system "Is a directory" 21

def message : ReadFailure → String
  | system reason code => s!"{reason} (os error {code})"
  | notText => "stream did not contain valid UTF-8"

end ReadFailure

/-- A session, and the lines that were written in it, latest first. -/
structure Report where
  session : Session := {}
  lines : List String := []

/-- A computation that writes lines. They stay when it fails. -/
abbrev Reporting := EStateM Failure Report

namespace Report

def ask {α : Type} (x : Resolving α) : Reporting α := fun r =>
  match x r.session with
  | .ok a s => .ok a { r with session := s }
  | .error e s => .error e { r with session := s }

def write (line : String) : Reporting Unit := modify fun r => { r with lines := line :: r.lines }

def unionOf (k : Catalog) (normalized : Bool) (types : List Shape) : Resolving String := do
  if normalized then return unionText Declared.chars (← normalize k types)
  else return unionText Shape.chars types

def writeResolution (k : Catalog) (normalized : Bool) (name : String) (r : Resolution) :
    Reporting Unit := do
  let union ← ask (unionOf k normalized r.types)
  write (name ++ (if r.needsLength then "<TLength>: " else ": ") ++ union)

/-- Properties, descriptors, data types if they are declared, and pseudo-classes. Each group is
resolved before its first line is written. -/
def writeAll (d : Definitions) (k : Catalog) (normalized : Bool) : Reporting Unit := do
  let properties ← ask (resolveProperties k k.properties.keys)
  properties.forM fun (name, r) => writeResolution k normalized name r
  let descriptors ← ask (resolveDescriptors k d.descriptors)
  descriptors.forM fun r =>
    writeResolution k normalized (Definitions.descriptorName r.rule r.descriptor) r.resolution
  if normalized then
    let dataTypes ← ask (resolveDataTypes k k.dataTypes.keys)
    dataTypes.forM fun (name, r) => writeResolution k normalized ("<" ++ name ++ ">") r
  if d.pseudoClasses ≠ [] then
    write ("pseudo-classes: " ++ unionText Shape.chars d.pseudoClassShapes)

def unlines (lines : List String) : String := String.join (lines.map (· ++ "\n"))

def summary (s : Session) : String :=
  s!"{s.statistics.resolvedNames} names resolved, {s.statistics.parsedTexts} syntaxes parsed, " ++
    s!"{s.warnings.length} warnings"

/-- The outcome of resolving all definitions. A failure ends the run after the lines before it. -/
def outcome (d : Definitions) (options : Options) : Outcome :=
  match writeAll d (d.catalog options.settings) options.normalized {} with
  | .ok _ r =>
    ⟨0, unlines (r.lines.reverse ++ [summary r.session]),
      unlines (r.session.warningList.map ("Warning: " ++ ·.message))⟩
  | .error f r => ⟨1, unlines r.lines.reverse, unlines [f.render]⟩

end Report

def ArgumentError.outcome (e : ArgumentError) : Outcome :=
  ⟨2, "", Report.unlines [e.message, Options.usage]⟩

def Options.outcome (options : Options) : Except ReadFailure String → Outcome
  | .error f => ⟨1, "", Report.unlines [s!"Error: failed to read {options.path}: {f.message}"]⟩
  | .ok text =>
    match Definitions.read? text with
    | some d => Report.outcome d options
    | none => ⟨1, "", Report.unlines ["Error: malformed syntax tables"]⟩

/-- The outcome of a whole command line, given how files are read. -/
def outcome (arguments : List String) (read : String → Except ReadFailure String) : Outcome :=
  match Options.ofArguments arguments with
  | .error e => e.outcome
  | .ok options => options.outcome (read options.path)

end ValueSyntax

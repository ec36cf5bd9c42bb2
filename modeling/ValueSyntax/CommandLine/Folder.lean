import ValueSyntax.CommandLine.Report

namespace ValueSyntax

/-- A folder that holds nothing but files, for the paths that start in it. -/
structure Folder where
  texts : Table String String

namespace Folder

inductive Place where
  | here
  | outside
  | file (text : String)

def step (f : Folder) (place : Place) (component : String) : Except ReadFailure Place :=
  match place with
  | .file _ => .error .notDirectory
  | .here =>
    if component = "" ∨ component = "." then .ok .here
    else if component = ".." then .ok .outside
    else
      match f.texts.get? component with
      | some text => .ok (.file text)
      | none => .error .notFound
  | .outside =>
    if component = "" ∨ component = "." ∨ component = ".." then .ok .outside
    else .error .notFound

def components (path : String) : List String := (path.toList.splitOn '/').map String.ofList

def Place.text : Place → Except ReadFailure String
  | file text => .ok text
  | _ => .error .isDirectory

def read (f : Folder) (path : String) : Except ReadFailure String :=
  if path = "" then .error .notFound
  else
    let start := if path.toList.head? = some '/' then Place.outside else .here
    ((components path).foldlM f.step start).bind Place.text

end Folder

end ValueSyntax

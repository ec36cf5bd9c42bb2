import ValueSyntax.Catalog
import ValueSyntax.Number.Digits
import ValueSyntax.Text.Quoted

namespace ValueSyntax

open Text

structure Options where
  path : String
  settings : Settings
  normalized : Bool
  deriving DecidableEq, Repr

inductive ArgumentError where
  | missingTables
  | missingValue (option : String)
  | invalidValue (option value : String)
  | unknownOption (option : String)
  deriving DecidableEq, Repr

def ArgumentError.message : ArgumentError → String
  | missingTables => "missing path to the syntax tables"
  | missingValue option => s!"option {option} expects a value"
  | invalidValue option value => s!"invalid value {quoted value} for option {option}"
  | unknownOption option => s!"unknown option {option}"

namespace Options

def usage : String :=
  "usage: csstyper <tables.json> [--max-operands N] [--no-property-refs] [--normalize]"

def limit? (text : String) : Option Nat := (Number.size? text.toList).filter (· ≤ operandCeiling)

/-- Whatever starts with two dashes is an option, known or not. -/
def isOption (argument : String) : Bool := "--".toList.isPrefixOf argument.toList

/-- Reads arguments from left to right. Of several paths or limits the last one counts. -/
def readFrom (path : Option String) (settings : Settings) (normalized : Bool) :
    List String → Except ArgumentError Options
  | [] =>
    match path with
    | some path => .ok ⟨path, settings, normalized⟩
    | none => .error .missingTables
  | argument :: rest =>
    if argument = "--max-operands" then
      match rest with
      | [] => .error (.missingValue argument)
      | value :: rest =>
        match limit? value with
        | some limit => readFrom path { settings with maxOperands := limit } normalized rest
        | none => .error (.invalidValue argument value)
    else if argument = "--no-property-refs" then
      readFrom path { settings with inlineProperties := false } normalized rest
    else if argument = "--normalize" then readFrom path settings true rest
    else if isOption argument then .error (.unknownOption argument)
    else readFrom (some argument) settings normalized rest

def ofArguments (arguments : List String) : Except ArgumentError Options :=
  readFrom none {} false arguments

end Options

end ValueSyntax

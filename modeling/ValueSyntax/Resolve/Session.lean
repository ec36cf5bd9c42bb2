import ValueSyntax.Failure
import ValueSyntax.Shape.Basic
import ValueSyntax.Tree.Basic
import ValueSyntax.Warning

namespace ValueSyntax

/-- What a catalog defines. -/
inductive Entry where
  | dataType (name : String)
  | property (name : String)
  deriving DecidableEq, Repr

def Entry.name : Entry → String
  | dataType name => name
  | property name => name

structure Statistics where
  resolvedNames : Nat := 0
  parsedTexts : Nat := 0
  treeHits : Nat := 0
  textHits : Nat := 0
  unknownReferences : Nat := 0
  overflows : Nat := 0
  cycles : Nat := 0
  deriving DecidableEq, Repr, Inhabited

/-- Results by key, latest first. -/
abbrev Memo (κ α : Type) := List (κ × α)

/-- What a run over one catalog remembers. -/
structure Session where
  /-- Trees by their texts. -/
  trees : Memo String Tree := []
  /-- Resolved shapes by the texts that define them. -/
  texts : Memo String (List Shape) := []
  /-- Resolved shapes by entry. -/
  entries : Memo Entry (List Shape) := []
  /-- Whether the length parameter is needed, by data type. -/
  lengths : Memo String Bool := []
  /-- Entries in the order in which they were first resolved, latest first. -/
  resolved : List Entry := []
  /-- Entries that are being resolved, each of them once. -/
  inProgress : List Entry := []
  /-- Properties that a reference met while they were being expanded. Until each of them is
  finished, nothing that is resolved is final. -/
  openCycles : List String := []
  /-- Latest first. -/
  warnings : List Warning := []
  statistics : Statistics := {}

/-- A computation in a session. What it has remembered stays when it fails. -/
abbrev Resolving := EStateM Failure Session

namespace Session

def resolvedEntries (s : Session) : List Entry := s.resolved.reverse

def warningList (s : Session) : List Warning := s.warnings.reverse

def count (w : Warning) (s : Statistics) : Statistics :=
  match w with
  | .unknownDataType _ _ | .unknownProperty _ _ =>
    { s with unknownReferences := s.unknownReferences + 1 }
  | .cyclicProperty _ _ => { s with cycles := s.cycles + 1 }
  | .tooManyOperands _ _ _ _ => { s with overflows := s.overflows + 1 }

def warn (w : Warning) (s : Session) : Session :=
  { s with warnings := w :: s.warnings, statistics := count w s.statistics }

def rememberTree (text : String) (tree : Tree) (s : Session) : Session :=
  { s with
    trees := (text, tree) :: s.trees
    statistics := { s.statistics with parsedTexts := s.statistics.parsedTexts + 1 } }

def rememberText (text : String) (shapes : List Shape) (s : Session) : Session :=
  { s with texts := (text, shapes) :: s.texts }

def record (entry : Entry) (shapes : List Shape) (s : Session) : Session :=
  { s with
    entries := (entry, shapes) :: s.entries
    resolved := entry :: s.resolved
    statistics := { s.statistics with resolvedNames := s.statistics.resolvedNames + 1 } }

def hitTree (s : Session) : Session :=
  { s with statistics := { s.statistics with treeHits := s.statistics.treeHits + 1 } }

def hitText (s : Session) : Session :=
  { s with statistics := { s.statistics with textHits := s.statistics.textHits + 1 } }

/-- Built-in data types have shapes but are not resolved. -/
def rememberEntry (entry : Entry) (shapes : List Shape) (s : Session) : Session :=
  { s with entries := (entry, shapes) :: s.entries }

def rememberLength (needed : Bool) (s : Session) (name : String) : Session :=
  { s with lengths := (name, needed) :: s.lengths }

/-- A set: a property is open once, however often it is met. -/
def openCycle (property : String) (s : Session) : Session :=
  if property ∈ s.openCycles then s else { s with openCycles := property :: s.openCycles }

def enter (entry : Entry) (s : Session) : Session :=
  if entry ∈ s.inProgress then s else { s with inProgress := entry :: s.inProgress }

def close (entry : Entry) (s : Session) : Session :=
  let s := { s with inProgress := s.inProgress.filter (· ≠ entry) }
  match entry with
  | .property name => { s with openCycles := s.openCycles.filter (· ≠ name) }
  | .dataType _ => s

end Session

end ValueSyntax

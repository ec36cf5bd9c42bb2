namespace ValueSyntax

/-- What resolution got over by allowing any string. The referrer is the definition at fault. -/
inductive Warning where
  | unknownDataType (name referrer : String)
  | unknownProperty (name referrer : String)
  | cyclicProperty (name referrer : String)
  | tooManyOperands (mark : String) (operands limit : Nat) (referrer : String)
  deriving DecidableEq, Repr

def Warning.message : Warning → String
  | unknownDataType name referrer =>
    s!"unknown data type <{name}> referenced from `{referrer}`, widened to string"
  | unknownProperty name referrer =>
    s!"unknown property <'{name}'> referenced from `{referrer}`, widened to string"
  | cyclicProperty name referrer =>
    s!"cyclic property reference <'{name}'> from `{referrer}`, widened to string"
  | tooManyOperands mark operands limit referrer =>
    s!"`{mark}` with {operands} operands in `{referrer}` exceeds the limit of {limit}, " ++
      "widened to string"

end ValueSyntax

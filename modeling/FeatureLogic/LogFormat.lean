import FeatureLogic.Text.Blank

/-!
Forms of log output, chosen by name.
-/

namespace FeatureLogic

/-- How lines of a log are written. -/
inductive LogFormat
  /-- Plain lines. -/
  | text
  /-- Lines indented by nesting. -/
  | tree
  /-- One JSON object a line. -/
  | json
  deriving DecidableEq, Repr

/-- The form of a name, with blanks around it and capitals allowed; any other name is plain text.
No character outside ASCII has a small letter of these names. -/
def LogFormat.ofName (name : String) : LogFormat :=
  match Text.lower (String.ofList (Text.trim name.toList)) with
  | "tree" => tree
  | "json" => json
  | _ => text

end FeatureLogic

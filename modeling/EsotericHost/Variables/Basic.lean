import EsotericHost.Table

/-!
# Variables

The named texts that the program finds in its surroundings.
-/

namespace EsotericHost

/-- Texts by name. -/
structure Variables where
  entries : List (String × String)
  deriving Inhabited

namespace Variables

/-- The listed variables; of two with one name the later one counts. -/
def ofList (entries : List (String × String)) : Variables :=
  ⟨entries.foldl (fun table (name, value) => Table.insert name value table) []⟩

/-- The value of a variable. -/
def get? (vars : Variables) (name : String) : Option String :=
  Table.find? name vars.entries

/-- The variables with one set. -/
def insert (name value : String) (vars : Variables) : Variables :=
  ⟨Table.insert name value vars.entries⟩

/-- The variables with one set unless it has a value already. -/
def insertNew (name value : String) (vars : Variables) : Variables :=
  match vars.get? name with
  | some _ => vars
  | none => vars.insert name value

end Variables

end EsotericHost

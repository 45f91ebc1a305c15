import EsotericHost.Decimal.Literal
import EsotericHost.Json.Basic
import EsotericHost.Text.Blank

/-!
# Language options

A client chooses a language together with free-form options. A machine looks at the few that it
knows, each with one of three readings: a flag, a number or a string. A value of another kind than
the reading asks for counts as absent.
-/

namespace EsotericHost

/-- Option values by name, in the order of the names and with one value a name. -/
structure Options where
  entries : List (String × Json)
  deriving Inhabited

namespace Options

/-- No options. -/
def empty : Options := ⟨[]⟩

/-- The options listed in a canonical object. -/
def ofMembers (members : List (String × Json)) : Options := ⟨members⟩

/-- The options with one value set. -/
def insert (key : String) (value : Json) (o : Options) : Options :=
  ⟨Table.insert key value o.entries⟩

/-- Whether there are no options. -/
def isEmpty (o : Options) : Bool := o.entries.isEmpty

/-- The options as a JSON object. -/
def toJson (o : Options) : Json := .object o.entries

/-- The value of an option, whatever it is. -/
def get? (o : Options) (key : String) : Option Json :=
  Table.find? key o.entries

/-- A flag is set only by the value `true`. -/
def flag (o : Options) (key : String) : Bool :=
  match o.get? key with
  | some (.bool b) => b
  | _ => false

/-- A number option is a JSON number, cut to 64 bits if it is no integer that fits, or a string
that spells such an integer with blanks around it. -/
def number? (o : Options) (key : String) : Option Int :=
  match o.get? key with
  | some (.number (.int n)) => some (Word.clamp n)
  | some (.number (.float x)) => some (Decimal.truncate x)
  | some (.string s) => Decimal.readInt64? (Text.trimChars s.toList)
  | _ => none

/-- A string option is a JSON string. -/
def string? (o : Options) (key : String) : Option String :=
  match o.get? key with
  | some (.string s) => some s
  | _ => none

/-- Whether the client wants to see the machine at work. -/
def visualize (o : Options) : Bool := o.flag "updateVisuals"

end Options

end EsotericHost

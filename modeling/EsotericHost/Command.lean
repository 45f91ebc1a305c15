import EsotericHost.Options

/-!
# Commands

Everything that a client asks of the host is a `Command`.
-/

namespace EsotericHost

/-- The buttons of a client. -/
inductive Button where
  | reset
  | minify
  | interpret
  | step
  | textToCode
  deriving Repr, DecidableEq

/-- The name of a button. -/
def Button.name : Button → String
  | reset => "reset"
  | minify => "minify"
  | interpret => "interpret"
  | step => "step"
  | textToCode => "textToCode"

/-- The texts that a button is pressed with. -/
structure ButtonArgs where
  code : Option String
  text : Option String
  deriving Repr, DecidableEq, Inhabited

/-- A message from the client to the host. -/
inductive Command where
  | setLanguage (lang : String) (options : Options)
  | loadCode (source : String)
  | press (button : Button) (args : ButtonArgs)
  /-- Answers the outstanding request; the label of the request leaves the activity stack unless
  the client keeps it there. -/
  | unblock (value : Json) (popStatus : Bool)

end EsotericHost

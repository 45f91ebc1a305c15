import EsotericHost.Machine.Fault

/-!
# Errors of the host

A `HostError` is what the host tells its client when a command cannot be carried out or an
operation fails. `HostError.message` words it. Some errors are the client's own misuse.
-/

namespace EsotericHost

/-- Why the host reports an error. -/
inductive HostError where
  | unknownLanguage (lang : String)
  | badOptions (lang detail : String)
  | badCode (lang : String) (fault : Fault)
  | busy (lang action : String)
  | notSupported (lang capability : String)
  | nothingAsked
  | badInput (detail : String)
  | failed (lang : String) (fault : Fault)
  | noLanguage (action : String)
  | malformed (detail : String)
  | internal (detail : String)
  deriving Repr, DecidableEq

namespace HostError

/-- The wording of an error. -/
def message : HostError → String
  | unknownLanguage lang => s!"Error whilst creating interpreter for '{lang}': unknown language"
  | badOptions lang detail => s!"Error whilst creating interpreter for '{lang}': {detail}"
  | badCode lang fault => s!"Error whilst loading {lang} code:\n{fault.message}"
  | busy lang action => s!"{lang} interpreter is already busy ({action} in flight)"
  | notSupported lang capability => s!"{lang} interpreter provides no {capability} functionality"
  | nothingAsked => "Command 'unblock': no active block to unblock"
  | badInput detail => s!"Command 'unblock': {detail}"
  | failed lang fault => s!"{lang} interpreter failed: {fault.message}"
  | noLanguage action => s!"No interpreter loaded: send setLanguage before '{action}'"
  | malformed detail => s!"Malformed command: {detail}"
  | internal detail => s!"Internal error: {detail}"

/-- Whether the error is a misuse of the host by its client. -/
def isMisuse : HostError → Bool
  | busy .. | nothingAsked | badInput _ | noLanguage _ | malformed _ => true
  | unknownLanguage _ | badOptions .. | badCode .. | notSupported .. | failed .. | internal _ =>
    false

end HostError

end EsotericHost

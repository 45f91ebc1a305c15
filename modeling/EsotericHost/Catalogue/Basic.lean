import EsotericHost.Host.Session

/-!
# Catalogues of languages

A catalogue names the languages that a host can be asked for and makes their machines. The host
works with any catalogue; `Catalogue.join` puts two together.
-/

namespace EsotericHost

/-- A language: its name, and the machine that options choose or the reason why they choose none. -/
structure Language (σ : Type) where
  name : String
  build : Options → Except String σ

/-- The languages that a host knows, and the calls of their machines. -/
structure Catalogue (σ : Type) where
  machine : Machine σ
  languages : List (Language σ)

namespace Catalogue

variable {σ τ : Type}

/-- The language of the given name. -/
def find? (c : Catalogue σ) (lang : String) : Option (Language σ) :=
  c.languages.find? (·.name = lang)

/-- Whether there is a language of the given name. -/
def contains (c : Catalogue σ) (lang : String) : Bool := (c.find? lang).isSome

/-- The names of the languages in their order. -/
def names (c : Catalogue σ) : List String :=
  (c.languages.map (·.name)).mergeSort (· ≤ ·)

/-- Starts a session with a language. -/
def openSession (c : Catalogue σ) (lang : String) (options : Options) :
    Except HostError (Session σ) :=
  match c.find? lang with
  | none => .error (.unknownLanguage lang)
  | some language =>
    match language.build options with
    | .error detail => .error (.badOptions lang detail)
    | .ok state =>
      .ok ⟨language.name, options, c.machine.capabilities state, options.visualize, state⟩

/-- The languages of two catalogues in one. -/
def join (c : Catalogue σ) (d : Catalogue τ) : Catalogue (σ ⊕ τ) where
  machine := c.machine.sum d.machine
  languages :=
    c.languages.map (fun l => ⟨l.name, fun o => (l.build o).map .inl⟩) ++
      d.languages.map (fun l => ⟨l.name, fun o => (l.build o).map .inr⟩)

/-- A catalogue of the same machines without any language. -/
def withoutLanguages (c : Catalogue σ) : Catalogue σ := { c with languages := [] }

end Catalogue

end EsotericHost

import EsotericHost.Decimal.Layout
import EsotericHost.Decimal.Literal
import EsotericHost.Settings.Basic
import EsotericHost.Settings.Tree

/-!
# Settings from a tree

The settings that a tree of values stands for. Single values are taken leniently: a string may be
given as a number or a truth value, and a number as a string or a truth value, because variables
have no types of their own. A group of settings may be given as an array of its values in their
fixed order.
-/

namespace EsotericHost.Settings

namespace Tree

/-- Numbers are positional whatever their size, and a whole number has no point. -/
def plainLayout : Decimal.Layout := ⟨fun _ => true, false⟩

/-- The value as a string. -/
def string? : Tree → Option String
  | string s => some s
  | bool b => some (if b then "true" else "false")
  | int n => some (toString n)
  | float x => some (plainLayout.write x)
  | nothing | array _ | table _ => none

/-- A natural number of 64 bits in decimal digits, which may have a plus in front. -/
def readNat64? (cs : List Char) : Option Nat :=
  let digits := match cs with
    | '+' :: rest => rest
    | cs => cs
  (Decimal.readNat? digits).filter Word.holdsNat

/-- The double rounded to a natural number of 64 bits, a half away from zero. A negative one and
what is not a number give 0, and one out of range goes to the end of the range. -/
def roundNat (x : Float) : Nat :=
  match Decimal.parts x with
  | .infinite false => Word.natBound - 1
  | .finite false m e => min (Word.natBound - 1) ((Decimal.wholePart (2 * m) e + 1) / 2)
  | _ => 0

/-- The value as a natural number of 64 bits. -/
def nat? : Tree → Option Nat
  | int n => if 0 ≤ n then some n.toNat else none
  | bool b => some (if b then 1 else 0)
  | float x => some (roundNat x)
  | string s =>
    let word := s.map Char.toLower
    if word = "true" ∨ word = "on" ∨ word = "yes" then some 1
    else if word = "false" ∨ word = "off" ∨ word = "no" then some 0
    else readNat64? s.toList
  | nothing | array _ | table _ => none

/-- The values of a group with the given names, in their order. -/
def group? (names : List String) : Tree → Option (List (Option Tree))
  | table members => some (names.map fun name => Table.find? name members)
  | array items => some ((List.range names.length).map (items[·]?))
  | _ => none

/-- The value as options. -/
def options? : Tree → Option Options
  | table members => some (.ofMembers (toJsonMembers members))
  | _ => none

/-- The reading of a value that may be missing. -/
def reading? {α : Type} (read : Tree → Option α) : Option Tree → Option (Option α)
  | none => some none
  | some v => (read v).map some

/-- The reading of a value that may be missing or `nothing`. -/
def optional? {α : Type} (read : Tree → Option α) : Option Tree → Option (Option α)
  | some nothing => some none
  | v => reading? read v

end Tree

open Settings.Tree (reading? optional? group?)

/-- The settings of the log. -/
def logFilter? (v : Tree) : Option String := do
  match ← group? ["filter"] v with
  | [filter] => return (← reading? Tree.string? filter).getD defaultLogFilter
  | _ => none

/-- The settings of the host. -/
def host? (v : Tree) : Option HostSettings := do
  match ← group? ["language", "step_limit", "channel_capacity", "options"] v with
  | [language, stepLimit, channelCapacity, options] =>
    return {
      language := ← optional? Tree.string? language
      stepLimit := ← optional? Tree.nat? stepLimit
      channelCapacity := (← reading? Tree.nat? channelCapacity).getD defaultChannelCapacity
      options := (← reading? Tree.options? options).getD .empty }
  | _ => none

/-- The settings that a tree stands for. -/
def ofTree? (t : Tree) : Option Settings := do
  let log ← reading? logFilter? (Table.find? "log" t.members)
  let host ← reading? host? (Table.find? "host" t.members)
  return {
    logFilter := log.getD defaultLogFilter
    host := host.getD ⟨none, none, defaultChannelCapacity, .empty⟩ }

end EsotericHost.Settings

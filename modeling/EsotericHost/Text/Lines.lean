/-!
# Lines of a text

A text is cut into lines at its line feeds. `pieces` keeps an empty piece after a line feed at the
end, so that a text with `n` line feeds has `n + 1` pieces; `lines` reads the line feed as the end
of a line and so has no line there, and `fullLines` leaves the line feeds in the lines. All work on
bytes as well as on characters. A carriage return before the line feed belongs to the ending;
`dropReturn` and `dropReturns` take it off a line.
-/

namespace EsotericHost.Text

variable {α : Type} [DecidableEq α]

/-- The pieces between the separators; joining them with the separator gives the whole back. -/
def pieces (separator : α) (xs : List α) : List (List α) :=
  xs.foldr
    (fun x rest =>
      if x = separator then [] :: rest
      else match rest with
        | [] => [[x]]
        | piece :: rest => (x :: piece) :: rest)
    [[]]

/-- The lines of a text in which each line ends with the given terminator, which may be missing
after the last one. -/
def lines (terminator : α) (xs : List α) : List (List α) :=
  let all := pieces terminator xs
  if all.getLast? = some [] then all.dropLast else all

/-- The lines of a text together with their terminators; the last one may have none. -/
def fullLines (terminator : α) (xs : List α) : List (List α) :=
  let all := pieces terminator xs
  all.dropLast.map (· ++ [terminator]) ++ all.getLast?.toList.filter (!·.isEmpty)

/-- The line without one carriage return at its end. -/
def dropReturn (cr : α) (line : List α) : List α :=
  if line.getLast? = some cr then line.dropLast else line

/-- The line without any of the carriage returns at its end. -/
def dropReturns (line : List Char) : List Char :=
  (line.reverse.dropWhile (· = '\r')).reverse

end EsotericHost.Text

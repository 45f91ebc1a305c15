import EsotericHost.Befunge.Field
import EsotericHost.Length.Program
import EsotericHost.Proofs.Text.Lines

/-!
# Line endings

A text may end its lines with a carriage return and a line feed (`withReturns`). Its pieces are then
those of the text with a line feed alone, each but the last one with a carriage return at its end
(`pieces_withReturns`). Lines are measured, and stand on a field, without it.
-/

namespace EsotericHost.Text

/-- The text with a carriage return before each line feed. -/
def withReturns (cs : List Char) : List Char :=
  cs.flatMap fun c => if c = '\n' then ['\r', '\n'] else [c]

/-- The source with a carriage return before each line feed. -/
def returned (source : String) : String := String.ofList (withReturns source.toList)

/-- Pieces with a carriage return at the end of each but the last one. -/
def returnEach (pieces : List (List Char)) : List (List Char) :=
  pieces.dropLast.map (· ++ ['\r']) ++ pieces.getLast?.toList

variable {cs : List Char}

/-- The characters of the source with carriage returns before its line feeds. -/
theorem toList_returned (source : String) :
    (returned source).toList = withReturns source.toList :=
  String.toList_ofList

/-- A line feed gets a carriage return before it. -/
theorem withReturns_cons_lineFeed (cs : List Char) :
    withReturns ('\n' :: cs) = '\r' :: '\n' :: withReturns cs := rfl

/-- Any other character stays as it is. -/
theorem withReturns_cons {c : Char} (hc : c ≠ '\n') (cs : List Char) :
    withReturns (c :: cs) = c :: withReturns cs := by
  rw [withReturns, List.flatMap_cons, if_neg hc]
  rfl

/-- A piece that is not the last one gets a carriage return at its end. -/
theorem returnEach_cons {piece : List Char} {rest : List (List Char)} (hrest : rest ≠ []) :
    returnEach (piece :: rest) = (piece ++ ['\r']) :: returnEach rest := by
  rw [returnEach, List.dropLast_cons_of_ne_nil hrest, List.getLast?_cons_of_ne_nil hrest]
  rfl

/-- Carriage returns before the line feeds are at the ends of the pieces. -/
theorem pieces_withReturns (cs : List Char) :
    pieces '\n' (withReturns cs) = returnEach (pieces '\n' cs) := by
  induction cs with
  | nil => rfl
  | cons c cs ih =>
    by_cases hc : c = '\n'
    · subst hc
      have hline : '\n' ∉ ['\r'] := by decide
      have hpieces : pieces '\n' ('\n' :: cs) = [] :: pieces '\n' cs :=
        pieces_append_cons List.not_mem_nil cs
      have hpieces' : pieces '\n' ('\r' :: '\n' :: withReturns cs) =
          ['\r'] :: pieces '\n' (withReturns cs) :=
        pieces_append_cons hline (withReturns cs)
      rw [withReturns_cons_lineFeed, hpieces, hpieces', ih, returnEach_cons (pieces_ne_nil _ _)]
      rfl
    · obtain ⟨piece, rest, hpieces⟩ := List.exists_cons_of_ne_nil (pieces_ne_nil '\n' cs)
      rw [hpieces] at ih
      rw [withReturns_cons hc, pieces_cons_of_ne hc hpieces]
      by_cases hrest : rest = []
      · subst hrest
        exact pieces_cons_of_ne hc ih
      · rw [returnEach_cons hrest] at ih ⊢
        exact pieces_cons_of_ne hc ih

/-- The pieces of a text hold nothing else. -/
theorem mem_of_mem_pieces {separator c : Char} {piece : List Char}
    (hpiece : piece ∈ pieces separator cs) (hc : c ∈ piece) : c ∈ cs := by
  induction cs generalizing piece with
  | nil =>
    rw [List.mem_singleton.mp hpiece] at hc
    exact hc
  | cons d cs ih =>
    by_cases hd : d = separator
    · subst hd
      have hpieces : pieces d (d :: cs) = [] :: pieces d cs :=
        pieces_append_cons List.not_mem_nil cs
      rw [hpieces] at hpiece
      rcases List.mem_cons.mp hpiece with rfl | hpiece
      · cases hc
      · exact List.mem_cons_of_mem d (ih hpiece hc)
    · obtain ⟨first, rest, hpieces⟩ := List.exists_cons_of_ne_nil (pieces_ne_nil separator cs)
      rw [pieces_cons_of_ne hd hpieces] at hpiece
      rcases List.mem_cons.mp hpiece with rfl | hpiece
      · rcases List.mem_cons.mp hc with rfl | hc
        · exact List.mem_cons_self
        · exact List.mem_cons_of_mem d (ih (by rw [hpieces]; exact List.mem_cons_self) hc)
      · exact List.mem_cons_of_mem d (ih (by rw [hpieces]; exact List.mem_cons_of_mem _ hpiece) hc)

section

variable {β : Type} {f : List Char → β}

/-- What does not look at a carriage return at the end of a piece is the same with them and
without. -/
theorem map_returnEach {all : List (List Char)}
    (hf : ∀ piece ∈ all, f (piece ++ ['\r']) = f piece) :
    (returnEach all).map f = all.map f := by
  induction all with
  | nil => rfl
  | cons piece rest ih =>
    obtain ⟨hpiece, hrest⟩ := List.forall_mem_cons.mp hf
    by_cases hlast : rest = []
    · subst hlast
      rfl
    · rw [returnEach_cons hlast, List.map_cons, List.map_cons, hpiece, ih hrest]

/-- What does not mind the carriage return at the end of a piece finds the same in all pieces. -/
theorem map_pieces_withReturns (hf : ∀ piece ∈ pieces '\n' cs, f (piece ++ ['\r']) = f piece) :
    (pieces '\n' (withReturns cs)).map f = (pieces '\n' cs).map f := by
  rw [pieces_withReturns, map_returnEach hf]

/-- What does not mind the carriage return at the end of a line finds the same in all lines. -/
theorem map_lines_withReturns (hf : ∀ piece ∈ pieces '\n' cs, f (piece ++ ['\r']) = f piece) :
    (lines '\n' (withReturns cs)).map f = (lines '\n' cs).map f := by
  unfold lines
  dsimp only
  rw [pieces_withReturns]
  obtain ⟨front, last, hall⟩ := (List.eq_nil_or_concat' (pieces '\n' cs)).resolve_left
    (pieces_ne_nil '\n' cs)
  have hreturned : returnEach (pieces '\n' cs) = front.map (· ++ ['\r']) ++ [last] := by
    rw [hall, returnEach, List.dropLast_concat, List.getLast?_concat]
    rfl
  have hfront : (front.map (· ++ ['\r'])).map f = front.map f := by
    rw [List.map_map]
    refine List.map_congr_left fun piece hpiece => hf piece ?_
    rw [hall]
    exact List.mem_append_left _ hpiece
  rw [hreturned, hall, List.getLast?_concat, List.getLast?_concat]
  split
  · rw [List.dropLast_concat, List.dropLast_concat, hfront]
  · rw [List.map_append, List.map_append, hfront]

end

/-- A carriage return at the end of a line is dropped with those before it. -/
theorem dropReturns_concat (line : List Char) :
    dropReturns (line ++ ['\r']) = dropReturns line := by
  rw [dropReturns, List.reverse_append]
  rfl

end EsotericHost.Text

namespace EsotericHost

open Text

variable {cs : List Char}

/-- A line is as long with a carriage return at its end as without. -/
theorem Length.measure_concat (comments : Bool) {line : List Char} (hline : '\r' ∉ line) :
    Length.measure comments (line ++ ['\r']) = Length.measure comments line := by
  have hwith : dropReturn '\r' (line ++ ['\r']) = line := by
    rw [dropReturn_concat, if_pos rfl]
  have hwithout : dropReturn '\r' line = line := by
    refine if_neg fun hlast => hline ?_
    exact List.mem_of_getLast? hlast
  rw [Length.measure, Length.measure, hwith, hwithout]

/-- The lengths of lines are counted without the carriage returns at their ends. -/
theorem Length.lengths_withReturns (comments : Bool) (hcs : '\r' ∉ cs) :
    Length.lengths comments (withReturns cs) = Length.lengths comments cs := by
  have hempty : (withReturns cs).isEmpty = cs.isEmpty := by
    cases cs with
    | nil => rfl
    | cons c cs =>
      by_cases hc : c = '\n'
      · rw [hc]
        rfl
      · rw [withReturns_cons hc]
        rfl
  have hmap : (pieces '\n' (withReturns cs)).map (Length.measure comments) =
      (pieces '\n' cs).map (Length.measure comments) :=
    map_pieces_withReturns fun piece hpiece =>
      measure_concat comments fun hmem => hcs (mem_of_mem_pieces hpiece hmem)
  rw [Length.lengths, Length.lengths, hempty, hmap]

/-- A source stands on the same field with either line ending. -/
theorem Befunge.Field.ofSource_withReturns (cs : List Char) :
    Field.ofSource (withReturns cs) = Field.ofSource cs := by
  have hrows : (lines '\n' (withReturns cs)).map dropReturns = (lines '\n' cs).map dropReturns :=
    map_lines_withReturns fun piece _ => dropReturns_concat piece
  unfold ofSource
  rw [hrows]

end EsotericHost

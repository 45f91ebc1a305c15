import EsotericHost.CommandLine.Feed
import EsotericHost.Host.Request
import EsotericHost.Proofs.Text.Lines
import Mathlib.Data.List.TakeWhile

/-!
# What a feed hands out

A feed answers requests for characters and for lines, in any order, from one text. `Takes` says what
an answer takes off the text and what it leaves, without a word on how the feed finds the end of a
line. Every answer of a feed is of that kind (`Feed.next_takes`), so that the answers of a row of
requests divide the text up to the position of the feed among themselves (`Feed.serve_portions`):
no character is passed over, and none is handed out twice.
-/

namespace EsotericHost

/-! ## The value that hands over an input -/

/-- The value by which a client hands over an input. -/
def Input.value : Input → Json
  | .byte n => .ofInt n.toInt
  | .line text => .string text

/-- An input comes out of its value as it went in. -/
theorem Request.resolve_value (input : Input) :
    Request.resolve (some input.kind) input.value = .ok (input.kind, input) := by
  cases input with
  | line text => rfl
  | byte n =>
    have hfits : n.toInt < Word.intBound := Int64.toInt_lt n
    have hread : (Json.Number.int n.toInt).toInt64? = some n.toInt := if_pos hfits
    have hbyte : Request.byte (.number (.int n.toInt)) = .ok n := by
      unfold Request.byte
      dsimp only
      rw [hread]
      exact congrArg Except.ok (Int64.ofInt_toInt n)
    change ((Request.byte (.number (.int n.toInt))).map Input.byte).map (InputKind.byte, ·) = _
    rw [hbyte]
    rfl

/-- The value that stands for the end of the text in answer to a request. -/
def InputKind.nothing : InputKind → Json
  | .byte => .ofNat 0
  | .line => .string ""

/-! ## What an answer takes -/

/-- What an input takes off a text, and what it leaves of it. -/
inductive Takes : Input → List Char → List Char → Prop where
  /-- A character is handed over as its code point. -/
  | character {c : Char} {n : Int64} (code : n.toInt = c.toNat) (left : List Char) :
    Takes (.byte n) [c] left
  /-- A zero stands for the character that is not there. -/
  | spent : Takes (.byte 0) [] []
  /-- A line is handed over without the line feed that ends it. -/
  | line {line : List Char} (whole : '\n' ∉ line) (left : List Char) :
    Takes (.line (String.ofList line)) (line ++ ['\n']) left
  /-- The last line has no line feed, and is empty if the text is used up. -/
  | lastLine {line : List Char} (whole : '\n' ∉ line) : Takes (.line (String.ofList line)) line []

/-- What one answer of a feed hands over and what it takes off the text for it. -/
structure Helping where
  input : Input
  taken : List Char
  deriving Repr, DecidableEq

/-- A text is taken by one answer after the other, up to what is left at last. -/
inductive Served : List Char → List Helping → List Char → Prop where
  | nothing (text : List Char) : Served text [] text
  | next {input : Input} {taken rest left : List Char} {helpings : List Helping}
    (takes : Takes input taken rest) (more : Served rest helpings left) :
    Served (taken ++ rest) (⟨input, taken⟩ :: helpings) left

variable {text left : List Char} {helpings : List Helping}

/-- What has been taken and what is left make up the text. -/
theorem Served.text_eq (h : Served text helpings left) :
    text = (helpings.map Helping.taken).flatten ++ left := by
  induction h with
  | nothing text => rfl
  | next takes more ih => rw [List.map_cons, List.flatten_cons, List.append_assoc, ← ih]

/-- The text of a line has no line feed in it. -/
theorem Takes.not_mem_line {line : String} {taken : List Char} (h : Takes (.line line) taken left) :
    '\n' ∉ line.toList := by
  cases h with
  | line whole | lastLine whole =>
    rw [String.toList_ofList]
    exact whole

/-- No line that is handed over has a line feed in it. -/
theorem Served.not_mem_line (h : Served text helpings left) {helping : Helping}
    (hmem : helping ∈ helpings) {line : String} (hline : helping.input = .line line) :
    '\n' ∉ line.toList := by
  induction h with
  | nothing text => cases hmem
  | next takes more ih =>
    rcases List.mem_cons.mp hmem with rfl | hmem
    · subst hline
      exact takes.not_mem_line
    · exact ih hmem

/-! ## The answers of a feed -/

namespace Feed

/-- The line of a feed has no line feed in it. -/
theorem not_mem_line (f : Feed) : '\n' ∉ f.line := by
  intro hmem
  simpa using List.mem_takeWhile_imp hmem

/-- The line of a feed is all that is left, or there is a line feed after it. -/
theorem rest_eq_line (f : Feed) : f.rest = f.line ∨ ∃ left, f.rest = f.line ++ '\n' :: left := by
  have hsplit : f.rest = f.line ++ f.rest.dropWhile (· ≠ '\n') :=
    List.takeWhile_append_dropWhile.symm
  cases hafter : f.rest.dropWhile (· ≠ '\n') with
  | nil =>
    rw [hafter, List.append_nil] at hsplit
    exact .inl hsplit
  | cons c left =>
    have hfeed : c = '\n' := by
      have hhead := List.head?_dropWhile_not (fun c : Char => decide (c ≠ '\n')) f.rest
      rw [hafter] at hhead
      simpa using hhead
    rw [hafter, hfeed] at hsplit
    exact .inr ⟨left, hsplit⟩

/-- A feed without as many characters at its front as stand there is what follows them. -/
theorem drop_of_rest {f : Feed} {taken left : List Char} {count : Nat}
    (hf : f.rest = taken ++ left) (hcount : taken.length = count) :
    f.drop count = ⟨left, f.position + count⟩ := by
  unfold drop
  rw [hf, ← hcount, List.drop_left, List.take_left]

/-- A feed that is used up stays as it is. -/
theorem drop_of_nil {f : Feed} (hf : f.rest = []) (count : Nat) : f.drop count = f := by
  unfold drop
  rw [hf, List.drop_nil, List.take_nil]
  exact congrArg (Feed.mk · f.position) hf.symm

/-- After the end of the text nothing is handed out any more. -/
theorem next_of_nil {f : Feed} (hf : f.rest = []) (kind : InputKind) :
    f.next kind = (kind.nothing, f) := by
  cases kind with
  | byte =>
    unfold next
    dsimp only
    rw [drop_of_nil hf, hf]
    rfl
  | line =>
    have hline : f.line = [] := by
      unfold line
      rw [hf]
      rfl
    unfold next
    dsimp only
    rw [drop_of_nil hf, hline]
    rfl

/-- The answer of a feed to one request: a helping of the kind that is asked for, and the feed goes
on after what has been taken. -/
theorem next_takes (kind : InputKind) (f : Feed) :
    ∃ input taken left, input.kind = kind ∧ f.rest = taken ++ left ∧ Takes input taken left ∧
      f.next kind = (input.value, ⟨left, f.position + taken.length⟩) := by
  cases kind with
  | byte =>
    cases hrest : f.rest with
    | nil =>
      refine ⟨.byte 0, [], [], rfl, rfl, .spent, ?_⟩
      rw [next_of_nil hrest]
      exact congrArg (Prod.mk _) (congrArg (Feed.mk · f.position) hrest)
    | cons c left =>
      -- A code point fits the numbers of a machine.
      have hcode : (Int64.ofInt c.toNat).toInt = c.toNat := by
        have hsize := Text.toNat_lt_size c
        exact Int64.toInt_ofInt_of_le (by omega) (by omega)
      refine ⟨.byte (.ofInt c.toNat), [c], left, rfl, rfl, .character hcode left, ?_⟩
      have hsplit : f.rest = [c] ++ left := hrest
      have hdrop : f.drop 1 = ⟨left, f.position + 1⟩ := drop_of_rest hsplit rfl
      unfold next
      dsimp only
      rw [hdrop, hrest]
      have hvalue : (Input.byte (.ofInt c.toNat)).value = .ofNat c.toNat :=
        congrArg Json.ofInt hcode
      rw [hvalue]
      rfl
  | line =>
    rcases f.rest_eq_line with hrest | ⟨left, hrest⟩
    · refine ⟨.line (String.ofList f.line), f.line, [], rfl, ?_, .lastLine f.not_mem_line, ?_⟩
      · rw [List.append_nil]
        exact hrest
      -- There is no line feed to pass over.
      · have hdrop : f.drop (f.line.length + 1) = ⟨[], f.position + f.line.length⟩ := by
          unfold drop
          rw [hrest, List.drop_eq_nil_of_le (Nat.le_succ _), List.take_of_length_le (Nat.le_succ _)]
        unfold next
        dsimp only
        rw [hdrop]
        rfl
    · have hsplit : f.rest = (f.line ++ ['\n']) ++ left := by
        rw [List.append_assoc]
        exact hrest
      have hlength : (f.line ++ ['\n']).length = f.line.length + 1 := List.length_append
      refine ⟨.line (String.ofList f.line), f.line ++ ['\n'], left, rfl, hsplit,
        .line f.not_mem_line left, ?_⟩
      unfold next
      dsimp only
      rw [drop_of_rest hsplit hlength, hlength]
      rfl

/-- The answers of a feed to requests of some kinds one after the other, and the feed after them. -/
def serve : List InputKind → Feed → List Json × Feed
  | [], f => ([], f)
  | kind :: kinds, f =>
    let (value, f) := f.next kind
    let (values, f) := serve kinds f
    (value :: values, f)

/-- One more request is answered by the feed after the others. -/
theorem serve_concat (kinds : List InputKind) (kind : InputKind) (f : Feed) :
    f.serve (kinds ++ [kind]) =
      ((f.serve kinds).1 ++ [((f.serve kinds).2.next kind).1],
        ((f.serve kinds).2.next kind).2) := by
  induction kinds generalizing f with
  | nil => rfl
  | cons first kinds ih =>
    rw [List.cons_append]
    unfold serve
    dsimp only
    rw [ih]
    rfl

/-- The answers of a feed are taken off its text one after the other, and its position counts what
they take. -/
theorem serve_served (kinds : List InputKind) (f : Feed) :
    ∃ helpings, helpings.map (·.input.kind) = kinds ∧
      helpings.map (·.input.value) = (f.serve kinds).1 ∧
      Served f.rest helpings (f.serve kinds).2.rest ∧
      (f.serve kinds).2.position = f.position + (helpings.map Helping.taken).flatten.length := by
  induction kinds generalizing f with
  | nil => exact ⟨[], rfl, rfl, .nothing f.rest, rfl⟩
  | cons kind kinds ih =>
    obtain ⟨input, taken, left, hkind, hrest, htakes, hnext⟩ := f.next_takes kind
    obtain ⟨helpings, hkinds, hvalues, hserved, hposition⟩ := ih ⟨left, f.position + taken.length⟩
    unfold serve
    rw [hnext, hrest]
    refine ⟨⟨input, taken⟩ :: helpings, ?_, ?_, .next htakes hserved, ?_⟩
    · rw [List.map_cons, hkinds, hkind]
    · rw [List.map_cons, hvalues]
    · dsimp only at hposition ⊢
      rw [hposition, List.map_cons, List.flatten_cons, List.length_append, Nat.add_assoc]

/-- Requests have been answered from a text by the given values, and a feed is left: what the
answers have taken is the text up to its position. -/
structure Portions (text : List Char) (kinds : List InputKind) (values : List Json) (f : Feed)
    (helpings : List Helping) : Prop where
  kinds_eq : helpings.map (·.input.kind) = kinds
  values_eq : helpings.map (·.input.value) = values
  served : Served text helpings f.rest
  position_le : f.position ≤ text.length
  taken_eq : (helpings.map Helping.taken).flatten = text.take f.position
  rest_eq : f.rest = text.drop f.position
  not_mem_line : ∀ helping ∈ helpings, ∀ line, helping.input = .line line → '\n' ∉ line.toList
  /-- Each value is taken for the input of a request of its kind. -/
  resolved : ∀ helping ∈ helpings, Request.resolve (some helping.input.kind) helping.input.value =
    .ok (helping.input.kind, helping.input)
  /-- At the end of the text every further request is answered by nothing. -/
  spent : f.position = text.length → ∀ kind, f.next kind = (kind.nothing, f)

/-- The answers to any row of requests divide the text up to the position of the feed. -/
theorem serve_portions (text : String) (kinds : List InputKind) :
    ∃ helpings, Portions text.toList kinds ((ofText text).serve kinds).1
      ((ofText text).serve kinds).2 helpings := by
  obtain ⟨helpings, hkinds, hvalues, hserved, hposition⟩ := serve_served kinds (ofText text)
  have htext : text.toList = (helpings.map Helping.taken).flatten ++ _ := hserved.text_eq
  have hlength : ((ofText text).serve kinds).2.position =
      (helpings.map Helping.taken).flatten.length := hposition.trans (Nat.zero_add _)
  have hrest : ((ofText text).serve kinds).2.rest =
      text.toList.drop ((ofText text).serve kinds).2.position := by
    rw [hlength, htext, List.drop_left]
  refine ⟨helpings, hkinds, hvalues, hserved, ?_, ?_, hrest, fun _ hmem _ hline =>
    hserved.not_mem_line hmem hline, fun _ _ => Request.resolve_value _, fun hend => ?_⟩
  · rw [hlength, htext, List.length_append]
    exact Nat.le_add_right _ _
  · rw [hlength, htext, List.take_left]
  · exact next_of_nil (by rw [hrest, hend, List.drop_length])

end Feed

end EsotericHost

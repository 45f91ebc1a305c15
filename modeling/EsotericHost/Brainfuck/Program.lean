/-!
# Tape programs

A program is the row of commands that a source holds; every other character is a comment. Each
bracket knows the index of its partner, so that a jump needs no search. A source whose brackets do
not match has no program.
-/

namespace EsotericHost.Brainfuck

/-- A command. A bracket carries the index of the bracket that matches it. -/
inductive Op where
  | right
  | left
  | increment
  | decrement
  | output
  | input
  | opening (close : Nat)
  | closing (start : Nat)
  deriving Repr, DecidableEq

/-- A command and its place in the source, counted in characters. -/
structure Instruction where
  position : Nat
  op : Op
  deriving Repr, DecidableEq

/-- The commands of a source, and its length. -/
structure Program where
  code : Array Instruction
  sourceLength : Nat
  deriving Repr, DecidableEq, Inhabited

/-- A bracket without a partner, and its place in the source. -/
inductive Unmatched where
  | closing (position : Nat)
  | opening (position : Nat)
  deriving Repr, DecidableEq

/-- The characters that are commands. -/
def isCommand (c : Char) : Bool :=
  c = '>' || c = '<' || c = '+' || c = '-' || c = '.' || c = ',' || c = '[' || c = ']'

/-- The command of a character that is no bracket. -/
def simpleOp? (c : Char) : Option Op :=
  match c with
  | '>' => some .right
  | '<' => some .left
  | '+' => some .increment
  | '-' => some .decrement
  | '.' => some .output
  | ',' => some .input
  | _ => none

/-- The commands read so far, and the opening brackets without a partner among them, innermost
first, each with its index and its place in the source. -/
structure Scan where
  code : Array Instruction
  pending : List (Nat × Nat)
  pending_lt : ∀ bracket ∈ pending, bracket.1 < code.size := by simp

namespace Scan

/-- Nothing read yet. -/
def start : Scan := { code := #[], pending := [] }

/-- Adds a command. -/
def push (scan : Scan) (position : Nat) (op : Op) : Scan where
  code := scan.code.push ⟨position, op⟩
  pending := scan.pending
  pending_lt bracket h := by
    have := scan.pending_lt bracket h
    simp only [Array.size_push]
    omega

/-- Adds an opening bracket. It has a partner of its own until it meets the right one. -/
def openBracket (scan : Scan) (position : Nat) : Scan where
  code := scan.code.push ⟨position, .opening scan.code.size⟩
  pending := (scan.code.size, position) :: scan.pending
  pending_lt bracket h := by
    simp only [Array.size_push]
    rcases List.mem_cons.1 h with rfl | h
    · exact Nat.lt_succ_self _
    · exact Nat.lt_succ_of_lt (scan.pending_lt bracket h)

/-- Adds a closing bracket, unless there is no opening one that waits for it. -/
def closeBracket (scan : Scan) (position : Nat) : Except Unmatched Scan :=
  match h : scan.pending with
  | [] => .error (.closing position)
  | (start, startPosition) :: outer =>
    have start_lt : start < scan.code.size :=
      scan.pending_lt _ (by rw [h]; exact List.mem_cons_self)
    .ok
      -- The opening bracket gets the index that the closing one is about to take.
      { code := (scan.code.set start ⟨startPosition, .opening scan.code.size⟩).push
          ⟨position, .closing start⟩
        pending := outer
        pending_lt := fun bracket hb => by
          have := scan.pending_lt bracket (by rw [h]; exact List.mem_cons_of_mem _ hb)
          simp only [Array.size_push, Array.size_set]
          omega }

/-- Reads one character. -/
def next (scan : Scan) (position : Nat) (c : Char) : Except Unmatched Scan :=
  if c = '[' then .ok (scan.openBracket position)
  else if c = ']' then scan.closeBracket position
  else match simpleOp? c with
    | some op => .ok (scan.push position op)
    | none => .ok scan

/-- Reads on from a position to the end of the source. -/
def read (scan : Scan) (position : Nat) : List Char → Except Unmatched (Array Instruction)
  | [] =>
    match scan.pending with
    | [] => .ok scan.code
    -- The innermost bracket is the one complained of.
    | (_, position) :: _ => .error (.opening position)
  | c :: rest =>
    match scan.next position c with
    | .ok scan => scan.read (position + 1) rest
    | .error unmatched => .error unmatched

end Scan

/-- The program of a source. -/
def Program.ofSource (source : String) : Except Unmatched Program := do
  let cs := source.toList
  let code ← Scan.start.read 0 cs
  return ⟨code, cs.length⟩

/-- The source without its comments. -/
def minify (source : String) : String :=
  String.ofList (source.toList.filter isCommand)

/-- Commands that print each character in turn from the first cell, when the cell holds the code
point of the character before. -/
def printing (current : Nat) : List Char → List Char
  | [] => []
  | c :: rest =>
    List.replicate (c.toNat - current) '+' ++ List.replicate (current - c.toNat) '-' ++
      '.' :: printing c.toNat rest

/-- A program that prints a text. -/
def ofText (text : String) : String :=
  String.ofList (printing 0 text.toList)

end EsotericHost.Brainfuck

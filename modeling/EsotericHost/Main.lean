import EsotericHost.Catalogue.Standard
import EsotericHost.CommandLine.Program

/-!
# The executable

Carries out the dialogue of the program on the real surroundings: the files and variables of the
process and its standard streams.
-/

namespace EsotericHost

/-- What stands at a path of the file system. -/
def fileContent (path : String) : IO FileContent := do
  try
    let bytes ← IO.FS.readBinFile path
    match String.fromUTF8? bytes with
    | some content => return .text content
    | none => return .unreadable
  catch
    | .noFileOrDirectory .. => return .missing
    | _ => return .unreadable

/-- The variable that an entry of the process's environment sets. -/
def variableOfEntry? (entry : List UInt8) : Option (String × String) :=
  let equalsSign : UInt8 := 61
  let text (bytes : List UInt8) : Option String := String.fromUTF8? (ByteArray.mk bytes.toArray)
  match text (entry.takeWhile (· ≠ equalsSign)),
      text ((entry.dropWhile (· ≠ equalsSign)).drop 1) with
  | some name, some value => some (name, value)
  | _, _ => none

/-- The variables of the process. -/
def processVariables : IO Variables := do
  try
    let bytes ← IO.FS.readBinFile "/proc/self/environ"
    return .ofList ((Text.lines 0 bytes.toList).filterMap variableOfEntry?)
  catch _ => return .ofList []

/-- The bytes of a stream up to the next line feed. -/
partial def readLine (stream : IO.FS.Stream) (before : ByteArray) :
    IO (Option (List UInt8)) := do
  let bytes ← stream.read 1
  match bytes.toList with
  | [] => return if before.isEmpty then none else some before.toList
  | byte :: _ =>
    if byte = Surroundings.lineFeed then return some before.toList
    else readLine stream (before.push byte)

/-- The bytes of a stream up to its end. -/
partial def readAll (stream : IO.FS.Stream) (before : ByteArray) : IO ByteArray := do
  let bytes ← stream.read 65536
  if bytes.isEmpty then return before else readAll stream (before ++ bytes)

/-- Answers a question from the process's own surroundings. -/
def answer : (q : Question) → IO q.Answer
  | .file path => fileContent path
  | .environment => processVariables
  | .wholeInput => do return String.fromUTF8? (← readAll (← IO.getStdin) .empty)
  | .nextLine => do readLine (← IO.getStdin) .empty
  | .say text => do
    let out ← IO.getStdout
    out.putStr text
    out.flush
  | .complain text => IO.eprint text

/-- Carries out a dialogue that ends with an exit code. -/
def perform : Dialogue Nat → IO UInt32
  | .done code => return code.toUInt32
  | .ask q next => do perform (next (← answer q))
  | .never => return 1

/-- The program on the words that it is called with. Random directions start from the time. -/
def runProgram (words : List String) : IO UInt32 := do
  let draw := Befunge.Direction.drawn (← IO.monoNanosNow).toUInt64
  perform (CommandLine.program (Catalogue.standard draw) ample words)

end EsotericHost

/-- The program on the words that it is called with. -/
def main (words : List String) : IO UInt32 :=
  EsotericHost.runProgram words

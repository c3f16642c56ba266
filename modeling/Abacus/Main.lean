import Abacus.CommandLine.Invocation

/-!
The program: arguments, files and streams of the operating system around the pure invocation.
-/
namespace Abacus.CommandLine

def emit (output : Output) : IO Unit := do
  let stdout ← IO.getStdout
  stdout.putStr output.stdout
  stdout.flush
  let stderr ← IO.getStderr
  for message in output.stderr do
    stderr.putStrLn message

def lookUp (name : String) : IO FileState := do
  try return .content (← IO.FS.readBinFile name)
  catch
    | .noFileOrDirectory .. => return .missing
    | .inappropriateType _ code _ => return if code == 21 then .directory else .missing
    | problem => return .unreadable (toString problem)

/-- Reads the standard input up to and with the next line feed, nothing at its end. -/
partial def readLine (input : IO.FS.Stream) (read : ByteArray) : IO ByteArray := do
  let piece ← input.read 1
  if piece.isEmpty then return read
  let read := read ++ piece
  if piece.toList == [10] then return read else readLine input read

/-- Converses with the user until a turn ends the session. -/
partial def converse (session : Session) : IO Unit := do
  emit Session.prompt
  let bytes ← readLine (← IO.getStdin) .empty
  let turn := session.turnOf (if bytes.isEmpty then none else some (String.fromUTF8? bytes))
  emit turn.output
  match turn.next with
  | some next => converse next
  | none => return

end Abacus.CommandLine

open Abacus Abacus.CommandLine in
def main (arguments : List String) : IO UInt32 := do
  match Invocation.read arguments with
  | .error message =>
    let exit := Exit.refused message
    emit exit.output
    return exit.code.toUInt32
  | .ok invocation =>
    match invocation.source with
    | .session =>
      emit Session.banner
      converse ⟨invocation.calculator, invocation.options⟩
      return 0
    | .file name | .listing name =>
      let state ← lookUp name
      let exit := invocation.run (fun _ => state) .empty
      emit exit.output
      return exit.code.toUInt32
    | .expression _ =>
      let exit := invocation.run (fun _ => .missing) .empty
      emit exit.output
      return exit.code.toUInt32

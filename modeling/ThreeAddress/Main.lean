import ThreeAddress.CommandLine

/-! The program: the command line on the files and streams of the system. -/
namespace ThreeAddress.CommandLine

/-- The wording of an error of the system. -/
def systemMessage : IO.Error → Text
  | .noFileOrDirectory .. => FileError.notFound.message
  | .alreadyExists .. => FileError.exists_.message
  | .inappropriateType _ 21 _ => FileError.isDirectory.message
  | .inappropriateType .. => FileError.notDirectory.message
  | e => Text.ofString (toString e)

def pathOf (path : Text) : String := (String.fromUTF8? ⟨path.toArray⟩).getD ""

partial def readStream (stream : IO.FS.Stream) (sofar : ByteArray) : IO ByteArray := do
  let chunk ← stream.read 65536
  if chunk.isEmpty then return sofar else readStream stream (sofar ++ chunk)

def readSource (path : Text) : IO (Except Text Text) := do
  if path == standard then
    return .ok (← readStream (← IO.getStdin) .empty).toList
  try
    return .ok (← IO.FS.readBinFile (pathOf path)).toList
  catch e =>
    let operation := match e with
      | .inappropriateType _ 21 _ => "read"
      | _ => "open"
    return .error (Text.ofString operation ++ " " ++ path ++ ": " ++ systemMessage e)

/-- Writes the content to a new file beside the path and moves it there. -/
def writeTarget (path content : Text) : IO (Except Text Unit) := do
  let name : Text := ".p2c-" ++ Text.ofNat (← IO.rand 0 4294967295)
  let temporary := FileTree.inDirectory (FileTree.parent path) name
  try
    let handle ← IO.FS.Handle.mk (pathOf temporary) .writeNew
    handle.write ⟨content.toArray⟩
    handle.flush
  catch e =>
    return .error ("open " ++ temporary ++ ": " ++ systemMessage e)
  try
    IO.FS.rename (pathOf temporary) (pathOf path)
    return .ok ()
  catch e =>
    IO.FS.removeFile (pathOf temporary)
    let message := match e with
      | .inappropriateType _ 21 _ => FileError.exists_.message
      | _ => systemMessage e
    return .error ("rename " ++ temporary ++ " " ++ path ++ ": " ++ message)

def answer (args : List Text) : IO Reply := do
  match readArguments args with
  | .error reply => return reply
  | .ok job =>
    match ← readSource job.input with
    | .error message => return job.unreadable message
    | .ok source =>
      match job.perform source with
      | .answer reply => return reply
      | .writeFile path content log =>
        match ← writeTarget path content with
        | .ok () => return .success [] log
        | .error message => return Job.unwritable path message log

end ThreeAddress.CommandLine

open ThreeAddress in
def main (args : List String) : IO UInt32 := do
  let reply ← CommandLine.answer (args.map Text.ofString)
  (← IO.getStdout).write ⟨reply.stdout.toArray⟩
  (← IO.getStderr).write ⟨reply.stderr.toArray⟩
  return UInt32.ofNat reply.exit

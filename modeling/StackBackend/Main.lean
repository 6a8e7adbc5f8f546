import StackBackend.CommandLine

namespace StackBackend.Console

/-! The program: reads what an invocation names, and prints and saves what its
response says. -/

/-- The number and the text that the operating system gives to a failure. -/
def systemFailure? : IO.Error → Option (UInt32 × String)
  | .alreadyExists _ code text | .inappropriateType _ code text
  | .interrupted _ code text | .invalidArgument _ code text
  | .noFileOrDirectory _ code text | .noSuchThing _ code text
  | .permissionDenied _ code text | .resourceExhausted _ code text
  | .hardwareFault code text | .illegalOperation code text | .otherError code text
  | .protocolError code text | .resourceBusy code text | .resourceVanished code text
  | .timeExpired code text | .unsatisfiedConstraints code text
  | .unsupportedOperation code text => some (code, text)
  | .unexpectedEof | .userError _ => none

/-- The description of a failed access to a file. -/
def describeFileError (error : IO.Error) : String :=
  match systemFailure? error with
  | some (code, text) => text ++ " (os error " ++ toString code ++ ")"
  | none => toString error

partial def readToEnd (stream : IO.FS.Stream) (content : ByteArray) : IO ByteArray := do
  let chunk ← stream.read 65536
  if chunk.isEmpty then return content
  readToEnd stream (content ++ chunk)

/-- The text that an invocation is about, or why there is none. -/
def readSource (invocation : Invocation) : IO (Except String String) := do
  try
    let stream ←
      if invocation.readsStandardInput then
        IO.getStdin
      else
        IO.FS.Stream.ofHandle <$> IO.FS.Handle.mk invocation.file .read
    let content ← readToEnd stream ByteArray.empty
    match Utf8.text? content.toList with
    | some text => return .ok text
    | none => return .error "stream did not contain valid UTF-8"
  catch error =>
    return .error (describeFileError error)

def deliver (response : Response) : IO UInt32 := do
  let output ← IO.getStdout
  output.write (ByteArray.mk response.output.toArray)
  output.flush
  (← IO.getStderr).putStr response.report
  return response.exitCode.toUInt32

end StackBackend.Console

open StackBackend StackBackend.Console in
def main (arguments : List String) : IO UInt32 := do
  match Request.read? arguments with
  | none => deliver Response.misuse
  | some .version => deliver Response.version
  | some (.invoke invocation) =>
      match ← readSource invocation with
      | .error description =>
          deliver (Response.fileFailure invocation.sourceName description)
      | .ok source =>
          let response := invocation.respond source
          match response.save with
          | none => deliver response
          | some (path, content) =>
              try
                IO.FS.writeFile path content
                deliver response
              catch error =>
                deliver (Response.fileFailure path (describeFileError error))

import ScriptFlow.Command.Run

/-! The command line tool: reads the source from a file or from standard input and writes what the
command makes of it. -/

namespace ScriptFlow.CommandLine

def readAll (stream : IO.FS.Stream) (read : ByteArray) : Nat → IO ByteArray
  | 0 => return read
  | rounds + 1 => do
      let chunk ← stream.read 65536
      if chunk.isEmpty then return read else readAll stream (read ++ chunk) rounds

def source (request : Request) : IO ByteArray := do
  match request.input with
  | some path => IO.FS.readBinFile path
  | none => readAll (← IO.getStdin) .empty 4294967296

def run (arguments : List String) : IO UInt32 := do
  match Arguments.parse arguments with
  | .error error => do
      IO.eprintln s!"error: {error.label}"
      return 2
  | .ok request => do
      match request.command.run (← source request) with
      | .ok text => do
          IO.print text
          return 0
      | .error error => do
          IO.eprintln error.message
          return 1

end ScriptFlow.CommandLine

def main (arguments : List String) : IO UInt32 := ScriptFlow.CommandLine.run arguments

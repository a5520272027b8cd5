import Assembler65.CommandLine.Run

/-!
# The command line

Reads and writes files of the system; everything in between is decided by `Request`.
-/

set_option autoImplicit false

namespace Assembler65

/-- Carry out a request on the files of the system. -/
def Request.perform (r : Request) : IO Transcript := do
  match r.target with
  | .error transcript => return transcript
  | .ok path =>
    let contents ← try pure (some (← IO.FS.readBinFile r.input)) catch _ => pure none
    match r.build path (contents.bind String.fromUTF8?) with
    | .error transcript => return transcript
    | .ok b =>
      let written ← try IO.FS.writeBinFile b.path b.bytes; pure true catch _ => pure false
      return b.finish written

end Assembler65

/-- The assembler. -/
def main (arguments : List String) : IO UInt32 := do
  match Assembler65.Request.parse? arguments with
  | none =>
    IO.eprintln "Usage: [-d] [-o OUTPUT] [--origin ADDRESS] INPUT"
    return 2
  | some r =>
    let transcript ← r.perform
    IO.print transcript.output
    (← IO.getStdout).flush
    IO.eprint transcript.errors
    return UInt32.ofNat transcript.status

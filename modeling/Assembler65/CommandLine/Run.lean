import Assembler65.CommandLine.FileTree
import Assembler65.CommandLine.PathName
import Assembler65.CommandLine.Request
import Assembler65.Fault.Diagnostic
import Assembler65.Listing

/-!
# Runs of the assembler

A run reads one source, assembles it and writes one image, and tells its progress on the way. The
first stage that fails ends the run with the reports of its faults, and then nothing is written.
-/

set_option autoImplicit false

namespace Assembler65

/-- What a run prints, and its exit status. -/
structure Transcript where
  status : Nat
  output : String := ""
  errors : String := ""
  deriving DecidableEq, Repr

/-- An image ready to be written, with what the run has printed so far. -/
structure Build where
  path : String
  bytes : ByteArray
  progress : List String
  /-- What is printed once the image is written. -/
  epilogue : String

namespace Request

/-- The lines of a run's progress, as text. -/
def progressText (progress : List String) : String :=
  String.join (progress.map (· ++ "\n"))

/-- The end of a run at some faults. -/
def failure (progress : List String) (source : Option Source) (faults : List Fault) :
    Transcript :=
  { status := 1
    output := progressText progress
    errors := Fault.diagnostics source faults ++ toString faults.length ++ " error(s)\n" }

/-- The first lines of every run. -/
def opening : List String := ["65C02 Assembler by kanade-k-1228", "1. Read Source"]

/-- The place of the output. The input needs a proper name even if the place is given. -/
def target (r : Request) : Except Transcript String :=
  match PathName.outputPath r.input with
  | .error fault => .error (failure opening none [fault])
  | .ok path => .ok (r.output.getD path)

/-- The line about a finished image. -/
def imageLine (path : String) (image : Image) : String :=
  "  > " ++ path ++ " (" ++ toString image.bytes.size ++ " bytes from $" ++
    Text.hexWord image.origin ++ ")"

/-- The image of a source for a request, or the end of the run at the first stage that fails. -/
def assembleSource (r : Request) (path : String) (progress : List String) (source : Source) :
    Except Transcript Build :=
  let progress := progress ++ ["2. Lex"]
  match source.lexemes with
  | .error faults => .error (failure progress (some source) faults)
  | .ok lexemes =>
    let progress := progress ++ ["3. Resolve Macros, Labels & Addressing Modes"]
    let resolution := Program.resolve {} lexemes
    match resolution.outcome with
    | .error faults => .error (failure progress (some source) faults)
    | .ok records =>
      let progress := progress ++ ["4. Link & Generate Binary"]
      match link r.origin resolution.symbols.labels.names records with
      | .error faults => .error (failure progress (some source) faults)
      | .ok image =>
        .ok
          { path
            bytes := ⟨image.bytes⟩
            progress := progress ++ [imageLine path image]
            epilogue := if r.listing then Assembler65.listing source image else "" }

/-- The image for a request whose input has a text, or the end of the run. -/
def build (r : Request) (path : String) (text : Option String) : Except Transcript Build :=
  let progress := opening ++ ["  < " ++ r.input]
  match text with
  | none => .error (failure progress none [.inArguments (.unreadableFile r.input)])
  | some text => r.assembleSource path progress (Source.ofText r.input text)

end Request

/-- The end of a run whose image was written, or could not be. -/
def Build.finish (b : Build) (written : Bool) : Transcript :=
  if written then { status := 0, output := Request.progressText b.progress ++ b.epilogue }
  else Request.failure b.progress none [.inArguments (.unwritableFile b.path)]

/-- The transcript of a run with misused arguments. -/
def misuse : Transcript := { status := 2 }

/-- Carry out a request in a file tree. -/
def Request.runIn (r : Request) (tree : FileTree) : Transcript × FileTree :=
  match r.target with
  | .error transcript => (transcript, tree)
  | .ok path =>
    match r.build path (tree.readText? r.input) with
    | .error transcript => (transcript, tree)
    | .ok b =>
      match tree.write? b.path b.bytes with
      | some written => (b.finish true, written)
      | none => (b.finish false, tree)

/-- Run the assembler with some arguments in a file tree. -/
def runIn (tree : FileTree) (arguments : List String) : Transcript × FileTree :=
  match Request.parse? arguments with
  | none => (misuse, tree)
  | some r => r.runIn tree

end Assembler65

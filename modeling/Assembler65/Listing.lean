import Assembler65.Image.Basic
import Assembler65.Isa.Disassembly
import Assembler65.Source
import Assembler65.Text.Format

/-!
# Listings

One line for each span of an image: the address, the first bytes, the source row and, for code, the
disassembly. Bytes below the origin show as two points.
-/

set_option autoImplicit false

namespace Assembler65

open Text

/-- The number of bytes that a listing line shows. -/
def shownBytes : Nat := 4

/-- The bytes of a span in an image. -/
def Image.spanBytes (image : Image) (span : Span) : List (Option UInt8) :=
  (List.range span.length).map fun i => image.get? (span.address + UInt16.ofNat i)

namespace Listing

/-- The bytes of a span as a listing shows them. -/
def bytesText (bytes : List (Option UInt8)) : String :=
  let shown := (bytes.take shownBytes).map fun b =>
    match b with
    | some b => hexByte b
    | none => ".."
  " ".intercalate shown ++ (if bytes.length > shownBytes then "+" else "")

/-- The disassembly of a span. A byte outside the image counts as zero, but not as an opcode. -/
def disassembly (span : Span) (bytes : List (Option UInt8)) : String :=
  match span.isCode, bytes with
  | true, some code :: operand =>
    match decode code with
    | some instruction =>
      instruction.disassemble span.address (operand.map fun b => b.getD 0)
    | none => ""
  | _, _ => ""

/-- The line of a span. -/
def spanLine (source : Source) (image : Image) (span : Span) : String :=
  let bytes := image.spanBytes span
  "[" ++ styled [.cyan] (hexWord span.address) ++ "] " ++ alignLeft 12 (bytesText bytes) ++ " | " ++
    alignRight 4 (toString span.row) ++ ": " ++
    alignLeft 32 (trim ((source.row? span.row).getD "")) ++ " " ++ disassembly span bytes

/-- The first line, which names the source. -/
def headLine (name : String) : String :=
  repeated 21 '-' ++ "+------[" ++ name ++ "]" ++ repeated (45 - name.utf8ByteSize) '-'

/-- The last line. -/
def footLine : String := repeated 21 '-' ++ "+" ++ repeated 53 '-'

end Listing

/-- The listing of an image made from a source. -/
def listing (source : Source) (image : Image) : String :=
  let lines := [Listing.headLine source.name] ++
    image.spans.map (Listing.spanLine source image) ++ [Listing.footLine]
  String.join (lines.map (· ++ "\n"))

end Assembler65

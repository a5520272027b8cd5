import Assembler65.CommandLine.Run
import Assembler65.Proofs.Arguments
import Assembler65.Proofs.Diagnostics
import Assembler65.Proofs.FileTrees

/-!
# Runs and assembling

A run goes through the stages of assembling one by one and stops at the first that fails. What it
does is the same as to assemble the source in one go: `Request.Succeeds` says what a run needs and
`Request.FailsAt` where it stops, both in terms of `assemble`. Main statement:
`runIn_agrees_with_assemble`, a run that has all it needs writes the image and nothing else, and any
other run changes no file and reports the faults of the stage that failed.
-/

set_option autoImplicit false

namespace Assembler65

namespace Request

/-- A request has all that it needs in a tree: a proper name, a text, an image and a place to write
it to. -/
inductive Succeeds (r : Request) (tree : FileTree) : String → Image → Prop
  | intro {default text : String} {image : Image}
      (hname : PathName.outputPath r.input = .ok default)
      (htext : tree.readText? r.input = some text)
      (himage : assemble (Source.ofText r.input text) r.origin = .ok image)
      (hwritable : tree.Writable (r.output.getD default)) :
      Succeeds r tree (r.output.getD default) image

/-- The stage that a request fails at in a tree: the source that reports show, and the faults. -/
inductive FailsAt (r : Request) (tree : FileTree) : Option Source → List Fault → Prop
  | name {fault : Fault} (hname : PathName.outputPath r.input = .error fault) :
      FailsAt r tree none [fault]
  | reading {default : String} (hname : PathName.outputPath r.input = .ok default)
      (htext : tree.readText? r.input = none) :
      FailsAt r tree none [.inArguments (.unreadableFile r.input)]
  | assembling {default text : String} {faults : List Fault}
      (hname : PathName.outputPath r.input = .ok default)
      (htext : tree.readText? r.input = some text)
      (hfaults : assemble (Source.ofText r.input text) r.origin = .error faults) :
      FailsAt r tree (some (Source.ofText r.input text)) faults
  | writing {default text : String} {image : Image}
      (hname : PathName.outputPath r.input = .ok default)
      (htext : tree.readText? r.input = some text)
      (himage : assemble (Source.ofText r.input text) r.origin = .ok image)
      (hwritable : ¬ tree.Writable (r.output.getD default)) :
      FailsAt r tree none [.inArguments (.unwritableFile (r.output.getD default))]

variable {r : Request} {tree : FileTree}

theorem succeeds_or_failsAt (r : Request) (tree : FileTree) :
    (∃ path image, r.Succeeds tree path image) ∨ ∃ source faults, r.FailsAt tree source faults := by
  cases hname : PathName.outputPath r.input with
  | error fault => exact .inr ⟨_, _, .name hname⟩
  | ok default =>
    cases htext : tree.readText? r.input with
    | none => exact .inr ⟨_, _, .reading hname htext⟩
    | some text =>
      cases himage : assemble (Source.ofText r.input text) r.origin with
      | error faults => exact .inr ⟨_, _, .assembling hname htext himage⟩
      | ok image =>
        by_cases hwritable : tree.Writable (r.output.getD default)
        · exact .inl ⟨_, _, .intro hname htext himage hwritable⟩
        · exact .inr ⟨_, _, .writing hname htext himage hwritable⟩

/-! ## What a run does -/

/-- The stages of a run one by one end as assembling does: in the same image, or in the same
faults. -/
theorem exists_assembleSource_eq (r : Request) (path : String) (progress : List String)
    (source : Source) :
    ∃ lines, r.assembleSource path progress source =
      ((assemble source r.origin).mapError (failure lines (some source))).map fun image =>
        { path
          bytes := ⟨image.bytes⟩
          progress := lines
          epilogue := if r.listing then Assembler65.listing source image else "" } := by
  cases hlexemes : source.lexemes with
  | error faults =>
    refine ⟨progress ++ ["2. Lex"], ?_⟩
    simp [assembleSource, assemble, hlexemes, bind, Except.bind, Except.mapError, Except.map]
  | ok lexemes =>
    cases houtcome : (Program.resolve {} lexemes).outcome with
    | error faults =>
      refine ⟨progress ++ ["2. Lex"] ++ ["3. Resolve Macros, Labels & Addressing Modes"], ?_⟩
      simp [assembleSource, assemble, hlexemes, houtcome, bind, Except.bind, Except.mapError,
        Except.map]
    | ok records =>
      cases hlink : link r.origin (Program.resolve {} lexemes).symbols.labels.names records with
      | error faults =>
        refine ⟨progress ++ ["2. Lex"] ++ ["3. Resolve Macros, Labels & Addressing Modes"] ++
          ["4. Link & Generate Binary"], ?_⟩
        simp [assembleSource, assemble, hlexemes, houtcome, hlink, bind, Except.bind,
          Except.mapError, Except.map]
      | ok image =>
        refine ⟨progress ++ ["2. Lex"] ++ ["3. Resolve Macros, Labels & Addressing Modes"] ++
          ["4. Link & Generate Binary"] ++ [imageLine path image], ?_⟩
        simp [assembleSource, assemble, hlexemes, houtcome, hlink, bind, Except.bind,
          Except.mapError, Except.map]

/-- A request with all that it needs writes its image. -/
theorem Succeeds.exists_runIn_eq {path : String} {image : Image}
    (h : r.Succeeds tree path image) :
    ∃ transcript after, r.runIn tree = (transcript, after) ∧ transcript.status = 0 ∧
      tree.write? path ⟨image.bytes⟩ = some after := by
  cases h with
  | @intro default text _ hname htext himage hwritable =>
    obtain ⟨after, hafter⟩ := (FileTree.exists_write?_iff ⟨image.bytes⟩).2 hwritable
    obtain ⟨lines, hstages⟩ := r.exists_assembleSource_eq (r.output.getD default)
      (opening ++ ["  < " ++ r.input]) (Source.ofText r.input text)
    rw [himage] at hstages
    rw [runIn, target, hname]
    simp only [build, htext, hstages, Except.mapError, Except.map, hafter]
    exact ⟨_, _, rfl, rfl, rfl⟩

/-- A request that fails leaves the tree as it is and reports the faults of its stage. -/
theorem FailsAt.exists_runIn_eq {source : Option Source} {faults : List Fault}
    (h : r.FailsAt tree source faults) :
    ∃ lines, r.runIn tree = (failure lines source faults, tree) := by
  cases h with
  | name hname =>
    rw [runIn, target, hname]
    exact ⟨opening, rfl⟩
  | reading hname htext =>
    rw [runIn, target, hname]
    simp only [build, htext]
    exact ⟨_, rfl⟩
  | @assembling default text _ hname htext hfaults =>
    obtain ⟨lines, hstages⟩ := r.exists_assembleSource_eq (r.output.getD default)
      (opening ++ ["  < " ++ r.input]) (Source.ofText r.input text)
    rw [hfaults] at hstages
    rw [runIn, target, hname]
    simp only [build, htext, hstages, Except.mapError, Except.map]
    exact ⟨lines, rfl⟩
  | @writing default text image hname htext himage hwritable =>
    obtain ⟨lines, hstages⟩ := r.exists_assembleSource_eq (r.output.getD default)
      (opening ++ ["  < " ++ r.input]) (Source.ofText r.input text)
    have hrefused : tree.write? (r.output.getD default) ⟨image.bytes⟩ = none := by
      rw [Option.eq_none_iff_forall_ne_some]
      exact fun after hafter => hwritable ((FileTree.exists_write?_iff _).1 ⟨after, hafter⟩)
    rw [himage] at hstages
    rw [runIn, target, hname]
    simp only [build, htext, hstages, Except.mapError, Except.map, hrefused]
    exact ⟨lines, rfl⟩

end Request

/-- Arguments that are accepted are run as the request that they describe. -/
theorem runIn_of_asks {arguments : List String} {settings : List Request.Setting}
    {r : Request} (hasks : Request.Asks arguments settings)
    (hdescribes : Request.Describes settings r) (tree : FileTree) :
    runIn tree arguments = r.runIn tree := by
  rw [runIn, Request.parse?_eq_some_iff.2 ⟨settings, hasks, hdescribes⟩]

/-- Accepted arguments are run as the request that they describe. The run of a request succeeds
exactly if the input has a proper name and a text, the text can be assembled and the image can be
written. The file at the place of the output then holds the image, and all else is as before. Any
other run changes nothing and prints the reports of the faults of the stage that failed, with their
number. An input is kept unless a place for the output is given. -/
theorem runIn_agrees_with_assemble (r : Request) (tree : FileTree) :
    (∀ arguments settings, Request.Asks arguments settings → Request.Describes settings r →
        runIn tree arguments = r.runIn tree) ∧
      ((r.runIn tree).1.status = 0 ↔ ∃ path image, r.Succeeds tree path image) ∧
      (∀ path image, r.Succeeds tree path image →
        (r.runIn tree).2.read? path = some ⟨image.bytes⟩ ∧
          ∃ location, tree.locate? path = some location ∧
            tree.Writes location ⟨image.bytes⟩ (r.runIn tree).2) ∧
      ((¬ ∃ path image, r.Succeeds tree path image) →
        (r.runIn tree).1.status = 1 ∧ (r.runIn tree).2 = tree ∧
          ∃ source faults, r.FailsAt tree source faults ∧
            Fault.Reports source faults (r.runIn tree).1.errors) ∧
      (r.output = none → (r.runIn tree).2.read? r.input = tree.read? r.input) := by
  refine ⟨fun _ _ hasks hdescribes => runIn_of_asks hasks hdescribes tree, ?_⟩
  rcases r.succeeds_or_failsAt tree with ⟨path, image, hsucceeds⟩ | ⟨source, faults, hfails⟩
  · obtain ⟨transcript, after, heq, hstatus, hwrite⟩ := hsucceeds.exists_runIn_eq
    obtain ⟨location, hlocation, hwrites⟩ := FileTree.writes_of_write? hwrite
    refine ⟨⟨fun _ => ⟨path, image, hsucceeds⟩, fun _ => by rw [heq]; exact hstatus⟩, ?_,
      fun hnone => absurd ⟨path, image, hsucceeds⟩ hnone, ?_⟩
    · intro path' image' hsucceeds'
      obtain ⟨transcript', after', heq', -, hwrite'⟩ := hsucceeds'.exists_runIn_eq
      obtain ⟨location', hlocation', hwrites'⟩ := FileTree.writes_of_write? hwrite'
      rw [heq']
      exact ⟨by rw [hwrites'.read?_eq, if_pos hlocation'], location', hlocation', hwrites'⟩
    · intro houtput
      obtain ⟨hname, -, -, -⟩ := hsucceeds
      rw [houtput] at hlocation
      rw [heq, hwrites.read?_eq, if_neg]
      intro hinput
      exact PathName.locate?_outputPath_ne hname hinput hlocation
  · obtain ⟨lines, heq⟩ := hfails.exists_runIn_eq
    have hnone : ¬ ∃ path image, r.Succeeds tree path image := by
      rintro ⟨path, image, hsucceeds⟩
      obtain ⟨transcript, after, heq', hstatus, -⟩ := hsucceeds.exists_runIn_eq
      cases heq.symm.trans heq'
      cases hstatus
    rw [heq]
    refine ⟨⟨nofun, fun hsome => absurd hsome hnone⟩, ?_, ?_, fun _ => rfl⟩
    · intro path image hsucceeds
      exact absurd ⟨path, image, hsucceeds⟩ hnone
    · intro _
      exact ⟨rfl, rfl, source, faults, hfails, Fault.reports_diagnostics source faults⟩

/-- A program in a directory, and the image of an older one. -/
def loopTree : FileTree where
  files := [(["src", "loop.asm"], "start: JMP start\n".toUTF8), (["loop.bin"], ⟨#[0xEA]⟩)]

/-- What is printed about `loopTree` where memory has no room for the jump. -/
def loopReport : String :=
  "\x1b[31m\x1b[1merror[semantic]\x1b[39m\x1b[22m: Address overflow: output passes $FFFF\n" ++
    "     \x1b[34m-->\x1b[39m \x1b[4msrc/loop.asm:1:8\x1b[24m\n" ++
    "      \x1b[34m|\x1b[39m\n" ++
    " \x1b[34m   1 |\x1b[39m start: JMP start\n" ++
    "      \x1b[34m|\x1b[39m        \x1b[31m\x1b[1m^\x1b[39m\x1b[22m\n" ++
    "1 error(s)\n"

theorem reports_loopReport :
    Fault.Reports (some (Source.ofText "src/loop.asm" "start: JMP start\n"))
      [.inSource ⟨1, 8⟩ .addressOverflow] loopReport := by
  have hrow : Fault.ShowsRow (Source.ofText "src/loop.asm" "start: JMP start\n") 1
      "start: JMP start" :=
    .inl ⟨[], [], by decide +kernel, rfl⟩
  refine ⟨[_], .cons (@Fault.Report.placed _ _ _ ⟨1, 8⟩ "   1" "start: JMP start" "       " rfl rfl
    ⟨by decide, 3, by decide⟩ hrow (by decide)) .nil, ?_⟩
  decide +kernel

/-- The program is written over the older image, and no room for it leaves the older image. -/
theorem runIn_loopTree :
    (runIn loopTree ["-o", "loop.bin", "--origin=$8000", "src/loop.asm"]).1.status = 0 ∧
      (runIn loopTree ["-o", "loop.bin", "--origin=$8000", "src/loop.asm"]).2.read? "loop.bin" =
        some ⟨#[0x4C, 0x00, 0x80]⟩ ∧
      (runIn loopTree ["src/loop.asm", "-doloop.bin", "--origin", "$FFFE"]).1.status = 1 ∧
      (runIn loopTree ["src/loop.asm", "-doloop.bin", "--origin", "$FFFE"]).2 = loopTree ∧
      (runIn loopTree ["src/loop.asm", "-doloop.bin", "--origin", "$FFFE"]).1.errors =
        loopReport := by
  have hname : PathName.outputPath "src/loop.asm" = .ok "src/loop.bin" := by decide +kernel
  have htext : loopTree.readText? "src/loop.asm" = some "start: JMP start\n" := by decide +kernel
  -- There is room for the jump from `$8000` on.
  obtain ⟨settings, hasks, hdescribes⟩ := Request.parse?_eq_some_iff.1
    (show Request.parse? ["-o", "loop.bin", "--origin=$8000", "src/loop.asm"] =
      some ⟨"src/loop.asm", some "loop.bin", 0x8000, false⟩ by decide +kernel)
  obtain ⟨hrun, hstatus, hwritten, -⟩ :=
    runIn_agrees_with_assemble ⟨"src/loop.asm", some "loop.bin", 0x8000, false⟩ loopTree
  have hsucceeds : Request.Succeeds ⟨"src/loop.asm", some "loop.bin", 0x8000, false⟩ loopTree
      "loop.bin" ⟨0x8000, #[0x4C, 0x00, 0x80], [⟨1, 0x8000, 3, true⟩]⟩ :=
    .intro hname htext (by decide +kernel) ⟨["loop.bin"], by decide +kernel, by decide +kernel⟩
  -- There is none from `$FFFE` on.
  obtain ⟨settings', hasks', hdescribes'⟩ := Request.parse?_eq_some_iff.1
    (show Request.parse? ["src/loop.asm", "-doloop.bin", "--origin", "$FFFE"] =
      some ⟨"src/loop.asm", some "loop.bin", 0xFFFE, true⟩ by decide +kernel)
  obtain ⟨hrun', -, -, hfailed, -⟩ :=
    runIn_agrees_with_assemble ⟨"src/loop.asm", some "loop.bin", 0xFFFE, true⟩ loopTree
  have hfaults : assemble (Source.ofText "src/loop.asm" "start: JMP start\n") 0xFFFE =
      .error [.inSource ⟨1, 8⟩ .addressOverflow] := by
    decide +kernel
  have hfails : ¬ ∃ path image,
      Request.Succeeds ⟨"src/loop.asm", some "loop.bin", 0xFFFE, true⟩ loopTree path image := by
    rintro ⟨path, image, ⟨-, htext', himage, -⟩⟩
    cases htext.symm.trans htext'
    cases hfaults.symm.trans himage
  obtain ⟨hstatus', hkept, source, faults, hstage, hreports⟩ := hfailed hfails
  rw [hrun _ _ hasks hdescribes, hrun' _ _ hasks' hdescribes']
  refine ⟨hstatus.2 ⟨_, _, hsucceeds⟩, (hwritten _ _ hsucceeds).1, hstatus', hkept, ?_⟩
  cases hstage with
  | name hname' => cases hname.symm.trans hname'
  | reading _ htext' => cases htext.symm.trans htext'
  | assembling _ htext' hfaults' =>
    cases htext.symm.trans htext'
    cases hfaults.symm.trans hfaults'
    exact hreports.unique reports_loopReport
  | writing _ htext' himage _ =>
    cases htext.symm.trans htext'
    cases hfaults.symm.trans himage

end Assembler65

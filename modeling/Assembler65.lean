import Assembler65.Main
import Assembler65.Proofs.Emission
import Assembler65.Proofs.Linking
import Assembler65.Proofs.LinkFaults
import Assembler65.Proofs.Grammar
import Assembler65.Proofs.Words
import Assembler65.Proofs.DataList
import Assembler65.Proofs.Symbols
import Assembler65.Proofs.OperandForms
import Assembler65.Proofs.Operations
import Assembler65.Proofs.Statements
import Assembler65.Proofs.StatementWords
import Assembler65.Proofs.CleanRows
import Assembler65.Proofs.Acceptance
import Assembler65.Proofs.RecordRows
import Assembler65.Proofs.Encoding
import Assembler65.Proofs.LocatedFaults
import Assembler65.Proofs.LostLabels
import Assembler65.Proofs.AlikeLines
import Assembler65.Proofs.Expansion
import Assembler65.Proofs.Window
import Assembler65.Proofs.ListedOperands
import Assembler65.Proofs.Reassembly
import Assembler65.Proofs.Respelling
import Assembler65.Proofs.LexicalGrammar
import Assembler65.Proofs.RowCover
import Assembler65.Proofs.Diagnostics
import Assembler65.Proofs.FileTrees
import Assembler65.Proofs.CommandRuns
import Assembler65.Proofs.FaultPlaces
import Assembler65.Proofs.SurfaceForms
import Assembler65.Proofs.NumeralSyntax
import Assembler65.Proofs.FaultLists
import Assembler65.Proofs.ImageSpans
import Assembler65.Proofs.RowEnds
import Assembler65.Proofs.FaultSubjects
import Assembler65.Proofs.SymbolFaults
import Assembler65.Proofs.RangeFaults
import Assembler65.Proofs.WideNumbers
import Assembler65.Proofs.BranchFaults
import Assembler65.Proofs.EmissionBounds
import Assembler65.Proofs.DataElements

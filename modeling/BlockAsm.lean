import BlockAsm.Cursor
import BlockAsm.Main
import BlockAsm.Proofs.Comments
import BlockAsm.Proofs.Inheritance
import BlockAsm.Proofs.Isolation
import BlockAsm.Proofs.Program.Correctness
import BlockAsm.Proofs.ClosingBraces
import BlockAsm.Proofs.Lookups
import BlockAsm.Proofs.Termination
import BlockAsm.Proofs.Cursors
import BlockAsm.Proofs.Failures
import BlockAsm.Proofs.Program.Fixed
import BlockAsm.Proofs.RootMacros
import BlockAsm.Proofs.Program.Refeeding
import BlockAsm.Proofs.Matching
import BlockAsm.Proofs.StrayBraces
import BlockAsm.Proofs.Cutting
import BlockAsm.Proofs.Writing
import BlockAsm.Proofs.Strings
import BlockAsm.Proofs.Sessions
import BlockAsm.Proofs.Positions
import BlockAsm.Proofs.Operands
import BlockAsm.Proofs.Tables
import BlockAsm.Proofs.Classification

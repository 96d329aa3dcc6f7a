import FormulaFold.Main
import FormulaFold.Proofs.Addresses
import FormulaFold.Proofs.Closed
import FormulaFold.Proofs.Conditions
import FormulaFold.Proofs.ConstantArguments
import FormulaFold.Proofs.Counting
import FormulaFold.Proofs.Flattening
import FormulaFold.Proofs.HardFaults
import FormulaFold.Proofs.Held
import FormulaFold.Proofs.Idempotence
import FormulaFold.Proofs.InputCells
import FormulaFold.Proofs.Ledger
import FormulaFold.Proofs.Literals
import FormulaFold.Proofs.Mismatches
import FormulaFold.Proofs.Rendering
import FormulaFold.Proofs.Rounding
import FormulaFold.Proofs.SectionRows
import FormulaFold.Proofs.Selections
import FormulaFold.Proofs.Termination
import FormulaFold.Proofs.Unselected
import FormulaFold.Proofs.Volatility

import Multiprecision.Calibration.FileTree
import Multiprecision.Complex.Product
import Multiprecision.Main
import Multiprecision.Product.Algorithm.Json
import Multiprecision.Registers
import Multiprecision.Random.Stream
import Multiprecision.Workspace
import Multiprecision.Proofs.Outcome.Agreement
import Multiprecision.Proofs.Product.Termination
import Multiprecision.Proofs.Quotient
import Multiprecision.Proofs.Product.CrossCheck
import Multiprecision.Proofs.Complex.Samples
import Multiprecision.Proofs.Integer.Numerals
import Multiprecision.Proofs.Workspace
import Multiprecision.Proofs.Double.Arithmetic
import Multiprecision.Proofs.Integer.Double
import Multiprecision.Proofs.Quotient.Estimate
import Multiprecision.Proofs.Alternating
import Multiprecision.Proofs.Integer.Machine
import Multiprecision.Proofs.NumberTheory.Power
import Multiprecision.Proofs.NumberTheory.Reservation
import Multiprecision.Proofs.NumberTheory.Bezout
import Multiprecision.Proofs.NumberTheory.Primality
import Multiprecision.Proofs.NumberTheory.Agreement
import Multiprecision.Proofs.CommandLine
import Multiprecision.Proofs.Text.Numeral
import Multiprecision.Proofs.Integer.Decimal
import Multiprecision.Proofs.Integer.Hexadecimal
import Multiprecision.Proofs.Integer.Operand
import Multiprecision.Proofs.Alternating.Run
import Multiprecision.Proofs.Fermat.Spectrum
import Multiprecision.Proofs.Product.Descent
import Multiprecision.Proofs.Quotient.Precision
import Multiprecision.Proofs.Quotient.Corrections
import Multiprecision.Proofs.Fermat.Reduction
import Multiprecision.Proofs.Fermat.Shift
import Multiprecision.Fermat.Stages
import Multiprecision.Proofs.Fermat.Negacyclic
import Multiprecision.Proofs.Fermat.Stages
import Multiprecision.Proofs.Fermat.Inversion
import Multiprecision.Proofs.Product.Schoolbook
import Multiprecision.Proofs.Integer.Group
import Multiprecision.Proofs.Arithmetic.Word
import Multiprecision.Digits.Order
import Multiprecision.Proofs.Digits.Order
import Multiprecision.Proofs.Integer.Order
import Multiprecision.Proofs.Random.Uniform
import Multiprecision.Proofs.Thresholds
import Multiprecision.Complex.Samples.Checked
import Multiprecision.Proofs.Digits.Regroup.Checked
import Multiprecision.Proofs.Double.Integers
import Multiprecision.Proofs.Complex.Samples.Checked
import Multiprecision.Size
import Multiprecision.Proofs.Size
import Multiprecision.Calibration.Crossover.Checked
import Multiprecision.Proofs.Calibration.Crossover
import Multiprecision.Integer.Window.Checked
import Multiprecision.Proofs.Integer.Window

import Calculator.Binary64.Word
import Calculator.Main
import Calculator.Proofs.Adjacency
import Calculator.Proofs.Enclosure
import Calculator.Proofs.Group
import Calculator.Proofs.Handles
import Calculator.Proofs.Integer
import Calculator.Proofs.Journal
import Calculator.Proofs.OnePass
import Calculator.Proofs.Range
import Calculator.Proofs.Reading
import Calculator.Proofs.Resubmission
import Calculator.Proofs.Settings
import Calculator.Proofs.Shape
import Calculator.Proofs.Spacing
import Calculator.Proofs.Stacks

import MiniJava.Main
import MiniJava.CommandLine.Session
import MiniJava.Source.Writer
import MiniJava.Proofs.Assembly.Balance
import MiniJava.Proofs.Semantics.Code
import MiniJava.Proofs.Semantics.Source
import MiniJava.Proofs.Lowering.MethodMeaning
import MiniJava.Proofs.Assembly.Frames
import MiniJava.Proofs.Assembly.Slots
import MiniJava.Proofs.Lowering.Freshness
import MiniJava.Proofs.Assembly.Totality
import MiniJava.Proofs.Assembly.KindCorrect
import MiniJava.Proofs.Assembly.Simulation
import MiniJava.Proofs.Assembly.Independence
import MiniJava.Proofs.Assembly.ClassNames
import MiniJava.Proofs.Assembly.Endings
import MiniJava.Proofs.Lowering.NormalForm
import MiniJava.Proofs.Lowering.Text
import MiniJava.Proofs.Source.RoundTrip
import MiniJava.Proofs.Source.Presentation
import MiniJava.Proofs.Stack.Depths
import MiniJava.Proofs.Lowering.Varargs
import MiniJava.Proofs.Lowering.AssignmentOrder
import MiniJava.Proofs.Lowering.Evaluation
import MiniJava.Proofs.Lowering.Names
import MiniJava.Proofs.Lowering.Parentheses
import MiniJava.Proofs.Assembly.StackEffect
import MiniJava.Proofs.Assembly.InstrText
import MiniJava.Proofs.Lowering.Sequence
import MiniJava.Proofs.Lowering.Search

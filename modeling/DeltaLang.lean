import DeltaLang.Main
import DeltaLang.Proofs.Delta.Chains
import DeltaLang.Proofs.Delta.Derived
import DeltaLang.Proofs.Delta.Framed
import DeltaLang.Proofs.Delta.Histories
import DeltaLang.Proofs.Delta.Independence
import DeltaLang.Proofs.Delta.Informed
import DeltaLang.Proofs.Delta.LeastOrder
import DeltaLang.Proofs.Delta.NormalForm
import DeltaLang.Proofs.Delta.Ordered
import DeltaLang.Proofs.Delta.Repeated
import DeltaLang.Proofs.Location.Reused
import DeltaLang.Proofs.Location.Solving
import DeltaLang.Proofs.Names.Extension
import DeltaLang.Proofs.Names.Scanned
import DeltaLang.Proofs.Reading.Accepted
import DeltaLang.Proofs.Reading.Traits
import DeltaLang.Proofs.Run.Arithmetic
import DeltaLang.Proofs.Run.Budget
import DeltaLang.Proofs.Run.Scripts
import DeltaLang.Proofs.Run.Wrapped
import DeltaLang.Proofs.Trait.Algebra
import DeltaLang.Proofs.Trait.Broken
import DeltaLang.Proofs.Trait.Charges
import DeltaLang.Proofs.Trait.Cyclic
import DeltaLang.Proofs.Typing.Nodes
import DeltaLang.Proofs.Typing.Required
import DeltaLang.Report
import DeltaLang.Run.Session

import KernelGraph.Command.World
import KernelGraph.Lowering.Equations
import KernelGraph.Main
import KernelGraph.Proofs.Arena
import KernelGraph.Proofs.ChainEnd
import KernelGraph.Proofs.Walk
import KernelGraph.Proofs.JsonText
import KernelGraph.Proofs.Rounding
import KernelGraph.Proofs.Emission
import KernelGraph.Proofs.Scope
import KernelGraph.Proofs.Flattening
import KernelGraph.Proofs.Renaming
import KernelGraph.Proofs.Mapping
import KernelGraph.Proofs.Lockstep
import KernelGraph.Proofs.Sharing
import KernelGraph.Proofs.Reload
import KernelGraph.Proofs.Recompile
import KernelGraph.Proofs.ConstantTable
import KernelGraph.Proofs.Retry
import KernelGraph.Proofs.Naming
import KernelGraph.Proofs.Decoding
import KernelGraph.Proofs.Matching
import KernelGraph.Proofs.KernelAttributes
import KernelGraph.Proofs.Loading
import KernelGraph.Proofs.GraphText
import KernelGraph.Proofs.ElementCount
import KernelGraph.Proofs.Reporting
import KernelGraph.Proofs.ShapeText
import KernelGraph.Proofs.Notation
import KernelGraph.Proofs.ParameterTable
import KernelGraph.Proofs.AttributeText
import KernelGraph.Proofs.Unwinding
import KernelGraph.Proofs.Delivery
import KernelGraph.Proofs.RowPointers

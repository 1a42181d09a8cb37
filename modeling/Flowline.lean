import Flowline.Command.Directory
import Flowline.Main
import Flowline.Proofs.Compile.Arguments
import Flowline.Proofs.Compile.Comments
import Flowline.Proofs.Compile.Dropping
import Flowline.Proofs.Compile.Multicast
import Flowline.Proofs.Compile.Numbers
import Flowline.Proofs.Compile.Outranking
import Flowline.Proofs.Compile.Prerequisites
import Flowline.Proofs.ControlFlow.Determinism
import Flowline.Proofs.Flow.Bounds
import Flowline.Proofs.Lower.SliceNotes
import Flowline.Proofs.Source.Coverage
import Flowline.Proofs.Source.Regrouping
import Flowline.Proofs.Switch.Answering
import Flowline.Proofs.Switch.Packing

import Conquest.Lib.Text
import Conquest.Lib.Bv
import Conquest.Lib.Bits
import Conquest.Lib.Vars
import Conquest.Lib.Run
import Conquest.Lib.Digits
import Conquest.Lib.Dict
import Conquest.Lib.PyText
import Conquest.Lib.Scanf
import Conquest.Lib.Settle
import Conquest.Lib.Aging
import Conquest.Vvp
import Conquest.DataMem
import Conquest.PathData
import Conquest.StateFile
import Conquest.Smt.Binary
import Conquest.Smt.SigCore
import Conquest.Smt.Expr
import Conquest.Smt.Assign
import Conquest.Smt.Cache
import Conquest.Smt.Grow
import Conquest.Smt.Value
import Conquest.Smt.Versions
import Conquest.Smt.Fresh
import Conquest.Smt.Number
import Conquest.Smt.Int64
import Conquest.Smt.Narrow
import Conquest.Smt.Compare
import Conquest.Smt.Literal
import Conquest.Smt.Select
import Conquest.Smt.Partial
import Conquest.Smt.ArrayIndex
import Conquest.Smt.Visible
import Conquest.Smt.Expand
import Conquest.Smt.ExpandValue
import Conquest.Stmt.Branch
import Conquest.Stmt.Emit
import Conquest.Stmt.Executed
import Conquest.Stmt.Path
import Conquest.Explore.Stack
import Conquest.Explore.SimLog
import Conquest.Explore.Resync
import Conquest.Explore.Buffers
import Conquest.Explore.StateValue
import Conquest.Explore.Refine
import Conquest.Explore.Replay
import Conquest.Explore.Mutate
import Conquest.Explore.Query
import Conquest.Explore.Trials
import Conquest.Explore.Project
import Conquest.Explore.StepCoverage
import Conquest.Explore.Counted
import Conquest.Explore.Waiting
import Conquest.Explore.Rows
import Conquest.Explore.Inputs
import Conquest.Explore.Bounds
import Conquest.Explore.Emitted
import Conquest.Explore.Settled
import Conquest.Explore.Told
import Conquest.Explore.Finish
import Conquest.Explore.Joint
import Conquest.Explore.Repeat
import Conquest.Explore.Ranking
import Conquest.Explore.Learning
import Conquest.Explore.Targets
import Conquest.Explore.BranchId
import Conquest.Explore.Passes
import Conquest.Explore.InnerLoop
import Conquest.Explore.History
import Conquest.Explore.NewBlock
import Conquest.Explore.Nearest
import Conquest.Explore.Closest
import Conquest.Stmt.Skip
import Conquest.Flow.Distance
import Conquest.Flow.Condition
import Conquest.Stmt.Cfg
import Conquest.Netlist.Termination
import Conquest.Smt.ExprTerm

import Datacenter.Allocation.Policy
import Datacenter.Allocation.Text
import Datacenter.Binary64.Basic
import Datacenter.Binary64.Shortest
import Datacenter.Binary64.Text
import Datacenter.Consolidation.Estimate
import Datacenter.Consolidation.Evacuation
import Datacenter.Consolidation.Relief
import Datacenter.Consolidation.Round
import Datacenter.Consolidation.Target
import Datacenter.Core
import Datacenter.Deployment
import Datacenter.Fault
import Datacenter.Host
import Datacenter.HostSearch
import Datacenter.IdMap
import Datacenter.LoadModel
import Datacenter.MigrationPlan
import Datacenter.Pool.Basic
import Datacenter.Pool.Lifecycle
import Datacenter.Pool.Migration
import Datacenter.Pool.Processing
import Datacenter.Pool.Scaling
import Datacenter.Processor.Basic
import Datacenter.Processor.Ledger
import Datacenter.Processor.SpaceShared
import Datacenter.Processor.TimeShared
import Datacenter.Regression
import Datacenter.Scalar
import Datacenter.Selection.Policy
import Datacenter.Selection.Random
import Datacenter.Selection.Text
import Datacenter.Settings.Basic
import Datacenter.Settings.Document
import Datacenter.Settings.Error
import Datacenter.Settings.Options
import Datacenter.Settings.Scheduler
import Datacenter.Sharing
import Datacenter.Sorting
import Datacenter.Statistics
import Datacenter.TargetFit
import Datacenter.Text.Blank
import Datacenter.Text.Numeral
import Datacenter.Text.Pieces
import Datacenter.Threshold
import Datacenter.UtilizationHistory
import Datacenter.Vm
import Datacenter.Yaml.Cursor
import Datacenter.Yaml.Lexeme
import Datacenter.Yaml.Node
import Datacenter.Yaml.Token
import Datacenter.Proofs.IdMap
import Datacenter.Proofs.Host.Entry
import Datacenter.Proofs.Consolidation.Safety
import Datacenter.Proofs.Consolidation.Soundness
import Datacenter.Proofs.Pool.Coherence
import Datacenter.Proofs.Pool.SwitchingOff
import Datacenter.Proofs.Processor.Reachable
import Datacenter.Proofs.Processor.Resharing
import Datacenter.Proofs.Scalar
import Datacenter.Proofs.Pool.Evolution
import Datacenter.Proofs.Processor.Dedicated
import Datacenter.Proofs.Host.Receiving
import Datacenter.Proofs.Consolidation.Room
import Datacenter.Proofs.Consolidation.Turns
import Datacenter.Proofs.Binary64.Rounding
import Datacenter.Proofs.Consolidation.FreshPlans
import Datacenter.Proofs.Processor.LayingOut
import Datacenter.Proofs.Processor.Serving
import Datacenter.Proofs.Host.Serving
import Datacenter.Proofs.Statistics
import Datacenter.Proofs.Consolidation.SharedTargets
import Datacenter.Proofs.Pool.Vacating
import Datacenter.Proofs.Processor.Runs
import Datacenter.Proofs.Consolidation.SwitchingOff
import Datacenter.Proofs.Processor.History
import Datacenter.Proofs.Processor.Assignments
import Datacenter.Proofs.Processor.Isolation
import Datacenter.Proofs.Processor.Accounting
import Datacenter.Proofs.Processor.Tolerance
import Datacenter.Proofs.Processor.Superseding
import Datacenter.Proofs.Host.Moving
import Datacenter.Proofs.Pool.Relocation
import Datacenter.Proofs.Pool.FinishingOrder
import Datacenter.Proofs.Pool.Admission
import Datacenter.Proofs.Host.Capacity
import Datacenter.Proofs.Pool.Capacity
import Datacenter.Proofs.Consolidation.Capacity
import Datacenter.Proofs.WaterFilling
import Datacenter.Proofs.HostSearch
import Datacenter.Proofs.Allocation.Searching
import Datacenter.Proofs.Processor.Renewing
import Datacenter.Proofs.Pool.Refreshing
import Datacenter.Proofs.Pool.CoreCounts
import Datacenter.Proofs.Pool.Processing
import Datacenter.Proofs.Pool.FirstRequest
import Datacenter.Proofs.SharingOrder
import Datacenter.Proofs.Processor.FreeCapacity
import Datacenter.Proofs.Processor.Covering
import Datacenter.Proofs.Processor.Disturbance
import Datacenter.Proofs.Binary64.Fractions
import Datacenter.Proofs.Processor.Keeping
import Datacenter.Proofs.Pool.KeepingCores
import Datacenter.Proofs.Pool.DedicatedService
import Datacenter.Proofs.Pool.RefusedScaling
import Datacenter.Proofs.Pool.Shrinking
import Datacenter.Proofs.Selection.Choosing
import Datacenter.Proofs.Selection.Soundness
import Datacenter.Proofs.Consolidation.Relieving
import Datacenter.Proofs.UtilizationHistory
import Datacenter.Proofs.Text.Cutting
import Datacenter.Proofs.Selection.Written
import Datacenter.Proofs.Robustness
import Datacenter.Proofs.Real
import Datacenter.Proofs.Regression.Reflections
import Datacenter.Proofs.Regression.LeastSquares
import Datacenter.Proofs.Regression.Matrices
import Datacenter.Proofs.Regression.Determination
import Datacenter.Proofs.Sorting
import Datacenter.Proofs.Binary64.Order
import Datacenter.Proofs.LoadModel
import Datacenter.Proofs.Settings.Options

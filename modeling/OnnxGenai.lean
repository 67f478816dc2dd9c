import OnnxGenai.Kv.Histories
import OnnxGenai.Kv.Lease
import OnnxGenai.Kv.TieredPins
import OnnxGenai.Kv.SpillFile
import OnnxGenai.Ir.Mutations
import OnnxGenai.Optimizer.Relayouts
import OnnxGenai.Pressure.Waiting
import OnnxGenai.Pressure.HostLease
import OnnxGenai.Scheduler.Decisions
import OnnxGenai.Scheduler.SharedBudget
import OnnxGenai.Scheduler.BatchAdmission
import OnnxGenai.Comm.RendezvousSafety
import OnnxGenai.Server.Orphans
import OnnxGenai.Server.Conversations
import OnnxGenai.Speculative.SamplingLaw
import OnnxGenai.Generation.SessionLoop
import OnnxGenai.Generation.JsonConstraint
import OnnxGenai.Shape.Broadcast

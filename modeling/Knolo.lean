import Knolo.Runtime.Bounds
import Knolo.Runtime.Accounting
import Knolo.Runtime.Suspension
import Knolo.Runtime.Resumption
import Knolo.Runtime.Slices
import Knolo.Runtime.FileCheckpoints
import Knolo.Portable.Agreement
import Knolo.Portable.SchemaBinding
import Knolo.Host.Gate
import Knolo.Host.Exhaustion
import Knolo.Host.Registration
import Knolo.Host.Contracts
import Knolo.Host.NativeText
import Knolo.Host.NativeStrict
import Knolo.Icp.Absorbing
import Knolo.Icp.EventLog
import Knolo.Icp.Atomicity
import Knolo.Icp.HostInput
import Knolo.Icp.Handoff
import Knolo.Icp.Upgrade
import Knolo.Icp.Access
import Knolo.Icp.Undercount
import Knolo.Icp.EffectRounds
import Knolo.Builder.Validation
import Knolo.Builder.DefinitionHash
import Knolo.Builder.State
import Knolo.Builder.HashArithmetic
import Knolo.Harness.RootAgreement
import Knolo.Harness.Activation
import Knolo.Harness.Denials
import Knolo.Registry.Yank
import Knolo.Registry.Offline
import Knolo.Core.Patch
import Knolo.Core.Redaction
import Knolo.Experience.Identity
import Knolo.Skills.Staging
import Knolo.Skills.Starvation
import Knolo.Skills.Resolution
import Knolo.Skills.Publish
import Knolo.Replay.Trace
import Knolo.Replay.Resume
import Knolo.Icp.Slicing
import Knolo.Runtime.Chronicle
import Knolo.Runtime.CrashSafety
import Knolo.Runtime.Durability
import Knolo.Harness.Middleware
import Knolo.Core.Commute
import Knolo.Replay.Conduct
import Knolo.Icp.Independence
import Knolo.Harness.RootBinding
import Knolo.Adapters.Mcp
import Knolo.Adapters.Process
import Knolo.Harness.Receipt
import Knolo.Icp.Network

import Durable.Matching.TimedQueue
import Durable.Node.Setup
import Durable.Proofs.Event.Declared
import Durable.Proofs.Event.Fits
import Durable.Proofs.Event.JsonForm
import Durable.Proofs.Event.VersionTag
import Durable.Proofs.Event.WireForm
import Durable.Proofs.Execution.Advance
import Durable.Proofs.Execution.JsonForm
import Durable.Proofs.Execution.KeyText
import Durable.Proofs.Execution.Shape
import Durable.Proofs.Execution.Tracking
import Durable.Proofs.Execution.Trail
import Durable.Proofs.History.Answers
import Durable.Proofs.History.Children
import Durable.Proofs.History.Closed
import Durable.Proofs.History.Coherence
import Durable.Proofs.History.ContestedRebuild
import Durable.Proofs.History.Durations
import Durable.Proofs.History.Effects
import Durable.Proofs.History.Family
import Durable.Proofs.History.FamilyTurn
import Durable.Proofs.History.Firing
import Durable.Proofs.History.HandOver
import Durable.Proofs.History.Kinship
import Durable.Proofs.History.Leads
import Durable.Proofs.History.LogShape
import Durable.Proofs.History.Move
import Durable.Proofs.History.Noops
import Durable.Proofs.History.Outstanding
import Durable.Proofs.History.Paging
import Durable.Proofs.History.PendingTimers
import Durable.Proofs.History.Requests
import Durable.Proofs.History.Run
import Durable.Proofs.History.Sharing
import Durable.Proofs.History.Signals
import Durable.Proofs.History.Steps
import Durable.Proofs.History.TimerAgreement
import Durable.Proofs.History.TimerCommands
import Durable.Proofs.History.WakeUp
import Durable.Proofs.Json.Records
import Durable.Proofs.Json.Rendered
import Durable.Proofs.Json.Scalars
import Durable.Proofs.Maps
import Durable.Proofs.Matching.Admission
import Durable.Proofs.Matching.Calls
import Durable.Proofs.Matching.Conservation
import Durable.Proofs.Matching.Hosting
import Durable.Proofs.Matching.Isolation
import Durable.Proofs.Matching.Ledger
import Durable.Proofs.Matching.Line
import Durable.Proofs.Matching.PriorityStore
import Durable.Proofs.Matching.Ring
import Durable.Proofs.Matching.RingChanges
import Durable.Proofs.Matching.Routing
import Durable.Proofs.Matching.TaskQueue
import Durable.Proofs.Matching.Uniqueness
import Durable.Proofs.Matching.Waiting
import Durable.Proofs.Node.Dispatch
import Durable.Proofs.Node.FreshWork
import Durable.Proofs.Node.Recovery
import Durable.Proofs.Node.Standing
import Durable.Proofs.Node.StartUp
import Durable.Proofs.Node.TimerRecovery
import Durable.Proofs.Store.Interchange
import Durable.Proofs.Store.Memory
import Durable.Proofs.Store.Mirror
import Durable.Proofs.Store.MirroredTimers
import Durable.Proofs.Store.Rows
import Durable.Proofs.Store.StoredStates
import Durable.Proofs.Store.TwoWrites
import Durable.Proofs.Text.Base64
import Durable.Proofs.Text.Numeral
import Durable.Proofs.Text.Utf8
import Durable.Proofs.Time.Calendar
import Durable.Proofs.Time.Millis
import Durable.Proofs.Time.Rfc3339
import Durable.Proofs.Timer.Arming
import Durable.Proofs.Timer.Claims
import Durable.Proofs.Timer.Due
import Durable.Proofs.Timer.Errand
import Durable.Proofs.Timer.Pass
import Durable.Proofs.Timer.Pipeline
import Durable.Proofs.Timer.Precision
import Durable.Proofs.Timer.Reporting
import Durable.Proofs.Timer.Rows
import Durable.Proofs.Timer.Settled
import Durable.Proofs.Timer.World
import Durable.Proofs.Wire.Message
import Durable.Store.Backend
import Durable.Store.Faulty
import Durable.Store.Location
import Durable.Timer.JsonForm

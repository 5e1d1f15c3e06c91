import RingOverlay.Arc
import RingOverlay.Contact
import RingOverlay.Digest
import RingOverlay.Endpoint
import RingOverlay.Fault
import RingOverlay.Json.Number
import RingOverlay.Json.Reader
import RingOverlay.Json.Record
import RingOverlay.Json.Skip
import RingOverlay.Json.Text
import RingOverlay.Message
import RingOverlay.Network.Run
import RingOverlay.Network.Scene
import RingOverlay.Network.Script
import RingOverlay.Network.Session
import RingOverlay.Network.State
import RingOverlay.Node
import RingOverlay.Procedure
import RingOverlay.Settings
import RingOverlay.Text.Quoted
import RingOverlay.Text.Unprintable
import RingOverlay.Text.Utf8
import RingOverlay.Upkeep
import RingOverlay.View
import RingOverlay.View.Summary
import RingOverlay.Wire.Frame
import RingOverlay.Wire.Reading
import RingOverlay.Wire.Written
import RingOverlay.Proofs.Circle
import RingOverlay.Proofs.Conduct
import RingOverlay.Proofs.Frame
import RingOverlay.Proofs.Growth.Invariant
import RingOverlay.Proofs.Growth.Nodes
import RingOverlay.Proofs.Growth.Path
import RingOverlay.Proofs.Growth.Safety
import RingOverlay.Proofs.Growth.System
import RingOverlay.Proofs.Growth.Turns
import RingOverlay.Proofs.Lookup.Halving
import RingOverlay.Proofs.Lookup.Progress
import RingOverlay.Proofs.Lookup.Rounds
import RingOverlay.Proofs.Lookup.Step
import RingOverlay.Proofs.Lookup.Walk
import RingOverlay.Proofs.Overlay
import RingOverlay.Proofs.Roster
import RingOverlay.Proofs.Lookup.Honest
import RingOverlay.Proofs.Growth.Slack
import RingOverlay.Proofs.Growth.Rest
import RingOverlay.Proofs.Round
import RingOverlay.Proofs.Traffic.System
import RingOverlay.Proofs.Traffic.Calm
import RingOverlay.Proofs.Traffic.Survivors
import RingOverlay.Proofs.Traffic.Checking
import RingOverlay.Proofs.Traffic.Healing
import RingOverlay.Proofs.Succession
import RingOverlay.Proofs.Node.Changes
import RingOverlay.Proofs.Node.History
import RingOverlay.Proofs.Node.Shape
import RingOverlay.Proofs.Node.Trust
import RingOverlay.Proofs.Node.Blame
import RingOverlay.Proofs.Node.Stations
import RingOverlay.Proofs.Wire.Decimal
import RingOverlay.Proofs.Json.Token
import RingOverlay.Proofs.Json.Compound
import RingOverlay.Proofs.Wire.RoundTrip
import RingOverlay.Proofs.Node.Stopping
import RingOverlay.Proofs.Node.Exchange
import RingOverlay.Proofs.Wire.Size
import RingOverlay.Proofs.Node.Frames
import RingOverlay.Proofs.Predecessor
import RingOverlay.Proofs.Failover
import RingOverlay.Proofs.Node.Service
import RingOverlay.Proofs.Node.Waiting
import RingOverlay.Proofs.Lookup.Course
import RingOverlay.Proofs.Lookup.Aftermath
import RingOverlay.Proofs.Node.Repetition
import RingOverlay.Proofs.Node.LateAnswers
import RingOverlay.Proofs.Fallbacks
import RingOverlay.Proofs.Lookup.Furthest
import RingOverlay.Proofs.Lookup.Vantage
import RingOverlay.Proofs.Node.Joining
import RingOverlay.Proofs.Json.Grammar
import RingOverlay.Proofs.Partition
import RingOverlay.Proofs.Wire.Delimiting
import RingOverlay.Proofs.Wire.Arrangement
import RingOverlay.Proofs.Json.Members
import RingOverlay.Proofs.Json.Unsigned
import RingOverlay.Proofs.Settings
import RingOverlay.Proofs.Lookup.Attempts
import RingOverlay.Proofs.Node.Bootstrap

import ReliableStream.Agenda
import ReliableStream.Alarm
import ReliableStream.Application.Basic
import ReliableStream.Application.Peer
import ReliableStream.Application.Script
import ReliableStream.Ascending
import ReliableStream.Binary64.Basic
import ReliableStream.Binary64.Reading
import ReliableStream.Binary64.Writing
import ReliableStream.Bounded
import ReliableStream.CommandLine.Options
import ReliableStream.CommandLine.Session
import ReliableStream.CommandLine.Usage
import ReliableStream.Connection.Arrival
import ReliableStream.Connection.Basic
import ReliableStream.Connection.Chunks
import ReliableStream.Connection.Effects
import ReliableStream.Connection.Handshake
import ReliableStream.Connection.Note
import ReliableStream.Connection.Settings
import ReliableStream.Connection.State
import ReliableStream.Connection.Transfer
import ReliableStream.Draws.ChaCha
import ReliableStream.Draws.Source
import ReliableStream.Endpoint
import ReliableStream.Failure
import ReliableStream.InFlight
import ReliableStream.Journal.Line
import ReliableStream.Journal.Value
import ReliableStream.Journal.Writer
import ReliableStream.Main
import ReliableStream.Network.Basic
import ReliableStream.Network.Fate
import ReliableStream.Network.Faults
import ReliableStream.Packet
import ReliableStream.Reassembly
import ReliableStream.Scenario
import ReliableStream.Simulation.Basic
import ReliableStream.Simulation.Entry
import ReliableStream.Simulation.Run
import ReliableStream.Text.Blank
import ReliableStream.Text.Decimal
import ReliableStream.Text.Distance
import ReliableStream.Text.Fields
import ReliableStream.Text.Printable
import ReliableStream.Text.Quoted
import ReliableStream.Time
import ReliableStream.Trace.Basic
import ReliableStream.Trace.Table
import ReliableStream.Proofs.Latency
import ReliableStream.Proofs.Layout
import ReliableStream.Proofs.Party.Basic
import ReliableStream.Proofs.Party.Move
import ReliableStream.Proofs.Party.Inversion
import ReliableStream.Proofs.Party.Sound
import ReliableStream.Proofs.Party.Later
import ReliableStream.Proofs.Party.Follows
import ReliableStream.Proofs.Coherent
import ReliableStream.Proofs.Link.Basic
import ReliableStream.Proofs.Link.Delivery
import ReliableStream.Proofs.Link.Store
import ReliableStream.Proofs.Party.Pump
import ReliableStream.Proofs.Party.Window
import ReliableStream.Proofs.Party.Outcome
import ReliableStream.Proofs.Party.Answer
import ReliableStream.Proofs.Party.Round
import ReliableStream.Proofs.Link.Recovery
import ReliableStream.Proofs.Party.Once
import ReliableStream.Proofs.Party.Watched
import ReliableStream.Proofs.Party.Turn
import ReliableStream.Proofs.Party.Paced
import ReliableStream.Proofs.Party.Contained
import ReliableStream.Proofs.Party.States
import ReliableStream.Proofs.Party.Repeated
import ReliableStream.Proofs.Link.Agreement
import ReliableStream.Proofs.Party.Proceeds
import ReliableStream.Proofs.Simulation.Peers
import ReliableStream.Proofs.Simulation.Pending
import ReliableStream.Proofs.Simulation.Outcomes
import ReliableStream.Proofs.Simulation.Acts
import ReliableStream.Proofs.Simulation.Sound
import ReliableStream.Proofs.Simulation.Watchdogs
import ReliableStream.Proofs.Simulation.Due
import ReliableStream.Proofs.Settled
import ReliableStream.Proofs.Expected
import ReliableStream.Proofs.Simulation.Delivery
import ReliableStream.Proofs.Simulation.Stages
import ReliableStream.Proofs.Simulation.Handshakes
import ReliableStream.Proofs.Simulation.Deadlines
import ReliableStream.Proofs.Weight
import ReliableStream.Proofs.Simulation.Termination
import ReliableStream.Proofs.Scenario.Runs
import ReliableStream.Proofs.Scenario.Transfer
import ReliableStream.Proofs.Scenario.OnTime
import ReliableStream.Proofs.Scenario.Prompt
import ReliableStream.Proofs.Scenario.Completion
import ReliableStream.Proofs.Agenda
import ReliableStream.Proofs.Simulation.Answers
import ReliableStream.Proofs.Simulation.Turns
import ReliableStream.Proofs.Simulation.Enacted
import ReliableStream.Proofs.Simulation.Tallies
import ReliableStream.Proofs.Simulation.Accounts
import ReliableStream.Proofs.Simulation.Intervals
import ReliableStream.Proofs.Simulation.Room
import ReliableStream.Proofs.Simulation.Alike
import ReliableStream.Proofs.Simulation.Splitting
import ReliableStream.Proofs.Scenario.Overflow
import ReliableStream.Proofs.Numbering.Shift
import ReliableStream.Proofs.Numbering.Commutes
import ReliableStream.Proofs.Numbering.Schedule
import ReliableStream.Proofs.Numbering.Apart
import ReliableStream.Proofs.Timing.Delay
import ReliableStream.Proofs.Timing.Lags
import ReliableStream.Proofs.Scenario.Delay
import ReliableStream.Proofs.Party.Slices
import ReliableStream.Proofs.Simulation.Causality
import ReliableStream.Proofs.Party.Cumulative
import ReliableStream.Proofs.Party.Receipts
import ReliableStream.Proofs.Reassembly.Requests
import ReliableStream.Proofs.Reassembly.Rebuilt
import ReliableStream.Proofs.Reassembly.LastPlace
import ReliableStream.Proofs.Party.LastPlace
import ReliableStream.Proofs.Network.Totals
import ReliableStream.Proofs.Network.Fates
import ReliableStream.Proofs.Trace.Cells
import ReliableStream.Proofs.Trace.ReadBack
import ReliableStream.Proofs.Journal.CutOff
import ReliableStream.Proofs.Departures

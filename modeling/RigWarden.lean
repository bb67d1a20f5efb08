import RigWarden.Text.Scan
import RigWarden.Text.Utf8
import RigWarden.Number.Fixed
import RigWarden.Number.Shortest
import RigWarden.Json.Reader
import RigWarden.Json.Writer
import RigWarden.Time.Duration
import RigWarden.Time.Instant
import RigWarden.Error
import RigWarden.Event.Basic
import RigWarden.Profile.Check
import RigWarden.Backend.Basic
import RigWarden.Log.Line
import RigWarden.Config.KeyValue
import RigWarden.Config.Template
import RigWarden.Config.Launch
import RigWarden.Event.Channel
import RigWarden.Log.Tailer
import RigWarden.Log.Tally
import RigWarden.Session.Restart
import RigWarden.Display
import RigWarden.Simulator.Run
import RigWarden.Peer.Message
import RigWarden.Disk.Operations
import RigWarden.Config.Write
import RigWarden.Provision.Provisioner
import RigWarden.Session.Pump
import RigWarden.Worker.Site
import RigWarden.Session.Host
import RigWarden.Session.Rehearsal
import RigWarden.Simulator.Behaviour
import RigWarden.Toml.Basic
import RigWarden.Toml.Reader
import RigWarden.Toml.Writer
import RigWarden.Settings.Basic
import RigWarden.Settings.File
import RigWarden.Simulator.Rehearsal
import RigWarden.Text.Replace
import RigWarden.Worker.Script
import RigWarden.Provision.Transfer
import RigWarden.CommandLine.Command
import RigWarden.CommandLine.Run
import RigWarden.Main
import RigWarden.Provision.Turns
import RigWarden.Session.Handle
import RigWarden.Peer.Connection
import RigWarden.Proofs.Session.PumpStep
import RigWarden.Proofs.Session.Report
import RigWarden.Proofs.Event.InFlight
import RigWarden.Proofs.Event.Delivery
import RigWarden.Proofs.Event.Sends
import RigWarden.Proofs.Event.Latest
import RigWarden.Proofs.Event.Controls
import RigWarden.Proofs.Text.Pieces
import RigWarden.Proofs.Text.Trim
import RigWarden.Proofs.Number.Digits
import RigWarden.Proofs.Number.Sign
import RigWarden.Proofs.Json.RoundTrip
import RigWarden.Proofs.Config.Preview
import RigWarden.Proofs.Config.KeyValue
import RigWarden.Proofs.Config.Template
import RigWarden.Proofs.Config.Xmrig
import RigWarden.Proofs.Config.Settings
import RigWarden.Proofs.Log.Lines
import RigWarden.Proofs.Log.Following
import RigWarden.Proofs.Log.Rotation
import RigWarden.Proofs.Log.Totals
import RigWarden.Proofs.Log.Extraction
import RigWarden.Proofs.Session.Shares
import RigWarden.Proofs.Session.Readings
import RigWarden.Proofs.Session.SharedStop
import RigWarden.Proofs.Session.Hosting
import RigWarden.Proofs.Peer.Custody
import RigWarden.Proofs.Peer.Reports
import RigWarden.Proofs.Peer.Attribution
import RigWarden.Proofs.Disk.Tree
import RigWarden.Proofs.Disk.Ways
import RigWarden.Proofs.Disk.PathSteps
import RigWarden.Proofs.Disk.Effects
import RigWarden.Proofs.Archive.Staging
import RigWarden.Proofs.Provision.Moves
import RigWarden.Proofs.Disk.Growth
import RigWarden.Proofs.Provision.Setting
import RigWarden.Proofs.Provision.Executable
import RigWarden.Proofs.Provision.Containment
import RigWarden.Proofs.Provision.Replacement
import RigWarden.Proofs.Provision.Records
import RigWarden.Proofs.Provision.Traceless
import RigWarden.Proofs.Provision.Beside
import RigWarden.Proofs.Provision.Serial
import RigWarden.Proofs.Disk.Identities
import RigWarden.Proofs.Disk.Opening
import RigWarden.Proofs.Provision.Premises
import RigWarden.Proofs.Session.Starts
import RigWarden.Proofs.Worker.Ageing
import RigWarden.Proofs.Worker.Supervision
import RigWarden.Proofs.Session.Watch
import RigWarden.Proofs.Session.Exclusion
import RigWarden.Proofs.Session.Moorings
import RigWarden.Proofs.Session.Tenure
import RigWarden.Proofs.Session.Replica
import RigWarden.Proofs.Session.Separation
import RigWarden.Proofs.Session.Passage
import RigWarden.Proofs.Session.Deadlines
import RigWarden.Proofs.Peer.Chronicle
import RigWarden.Proofs.Peer.Ownership
import RigWarden.Proofs.Peer.Welcome
import RigWarden.Proofs.Peer.Answer
import RigWarden.Proofs.Peer.AnswerOnce
import RigWarden.Proofs.Text.Braces
import RigWarden.Proofs.Config.Tokens
import RigWarden.Proofs.Json.Quotes
import RigWarden.Proofs.Config.Inspection
import RigWarden.Proofs.Config.Acceptance
import RigWarden.Proofs.Text.Scan
import RigWarden.Proofs.Text.Utf8
import RigWarden.Proofs.Log.Digest
import RigWarden.Proofs.Simulator.Lines
import RigWarden.Proofs.Simulator.Written
import RigWarden.Proofs.Simulator.Account
import RigWarden.Proofs.Archive.Contents
import RigWarden.Proofs.Disk.Making
import RigWarden.Proofs.Provision.Temporary
import RigWarden.Proofs.Provision.Fulfilment
import RigWarden.Proofs.Text.Split
import RigWarden.Proofs.Profile.Address
import RigWarden.Proofs.Simulator.Banner
import RigWarden.Proofs.Config.Writing
import RigWarden.Proofs.Session.Refusals
import RigWarden.Proofs.Number.Numerals
import RigWarden.Proofs.Log.Rates
import RigWarden.Proofs.Log.Tokens
import RigWarden.Proofs.Log.Verdicts
import RigWarden.Proofs.Event.Abandoned
import RigWarden.Proofs.Session.Backoff
import RigWarden.Proofs.Config.Filling

import StoneRidge.Worker.Delivery
import StoneRidge.Worker.Dns
import StoneRidge.Worker.Termination
import StoneRidge.Kit.Machine
import StoneRidge.Kit.Retention
import StoneRidge.Kit.Exact
import StoneRidge.Kit.AckQueue
import StoneRidge.Dispatch.Ledger
import StoneRidge.Worker.Redelivery
import StoneRidge.Cloner.Notice
import StoneRidge.Retry.Rounds
import StoneRidge.Windows.Handout
import StoneRidge.Push.Enqueuer
import StoneRidge.Results.Delivery
import StoneRidge.Pcap.Completeness
import StoneRidge.Pcap.OwnTraffic
import StoneRidge.Resolv.Conversation
import StoneRidge.Listener.Reconnect
import StoneRidge.Config.ReadBack
import StoneRidge.Archive.SameName
import StoneRidge.Archive.SameResponse
import StoneRidge.Retry.Enqueue
import StoneRidge.Info.BuildId
import StoneRidge.Cleaner.Passes
import StoneRidge.Resolv.WindowsDns
import StoneRidge.Resolv.MacDns
import StoneRidge.Dispatch.Clock
import StoneRidge.Results.Reporter
import StoneRidge.Unpacker.CopyTree
import StoneRidge.Pageloader.Pages
import StoneRidge.Isolation.Reported
import StoneRidge.Runner.TestRoot
import StoneRidge.Daemon.PidContent
import StoneRidge.Runner.InTurn
import StoneRidge.Retry.Pace
import StoneRidge.Named.DnsCheck
import StoneRidge.Replay.Wire
import StoneRidge.Replay.Quiet
import StoneRidge.Downloader.Builds
import StoneRidge.Archiver.Restored
import StoneRidge.Push.Settings

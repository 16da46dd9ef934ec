import Portty.Lib.Map
import Portty.Lib.Records
import Portty.Lib.Run
import Portty.Lib.Sequence
import Portty.Lib.Rotation
import Portty.Lib.Table
import Portty.Lib.Recent
import Portty.Lib.Regex
import Portty.Lib.Chunks
import Portty.Lib.Quote
import Portty.Lib.Keep
import Portty.Transport.Types
import Portty.Transport.CredentialStore
import Portty.Transport.Peers
import Portty.Transport.PeersRun
import Portty.Transport.PeersCrash
import Portty.Transport.PeersExec
import Portty.Transport.PeersFault
import Portty.Transport.PeersRefine
import Portty.Transport.PeersCas
import Portty.Transport.PeersRevoke
import Portty.Transport.PeersReload
import Portty.Transport.PeersGrace
import Portty.Host.Accept
import Portty.Host.Reconnect
import Portty.Host.FileTransfer
import Portty.Host.FileTransferTable
import Portty.Host.FileTransferUpload
import Portty.Host.PairConfirm
import Portty.Host.Permission
import Portty.Host.PermissionAnswer
import Portty.Transport.Crypto
import Portty.Transport.Pairing
import Portty.Transport.Handshake
import Portty.Transport.HandshakeServer
import Portty.Transport.HandshakePool
import Portty.Transport.Envelope
import Portty.Transport.HandshakeAgree
import Portty.App.Policy
import Portty.App.Timeline
import Portty.App.AutoApprove
import Portty.Host.Scrollback
import Portty.Host.Stream
import Portty.Host.StreamCoherent
import Portty.Host.StreamResume
import Portty.Host.Subscribe
import Portty.App.PolicyValues
import Portty.App.Cards
import Portty.App.CardsShown
import Portty.App.DecisionLog
import Portty.Lib.Rows
import Portty.Phone.Downloads
import Portty.Phone.DownloadsInv
import Portty.Phone.DownloadsSafe
import Portty.Phone.Transfers
import Portty.Phone.TransfersOwned
import Portty.Phone.TransfersApart
import Portty.Phone.Generations
import Portty.Phone.GenerationsInv
import Portty.Phone.GenerationsSafe
import Portty.Phone.PairRevoked
import Portty.App.LinkGuardSafe
import Portty.Host.AgentTurnSafe
import Portty.Host.AgentOwner
import Portty.Host.AgentCache
import Portty.Host.AgentResume
import Portty.Host.PushRegistry
import Portty.PushRelay.Relay
import Portty.PushRelay.RelayTable
import Portty.PushRelay.WakeBudget
import Portty.Host.Migration
import Portty.Cli.LaptopChat
import Portty.Cli.LaptopChatCards
import Portty.Cli.LaptopChatSafe
import Portty.Cli.Share
import Portty.Cli.ShareStops
import Portty.App.SensitiveText
import Portty.Lib.RegexLang
import Portty.Host.ScrollbackRing
import Portty.PushRelay.Refusal
import Portty.Lib.Utf8
import Portty.Lib.Find
import Portty.Host.TerminalCapture
import Portty.Cli.ProfileHook
import Portty.Phone.UploadRetry
import Portty.App.TimelineConverges
import Portty.Lib.Calendar
import Portty.Lib.Checked
import Portty.Host.Timestamp
import Portty.Lib.Reads
import Portty.Transport.Frame
import Portty.App.AltScreen
import Portty.Lib.Percent
import Portty.App.LocalUrls
import Portty.App.LocalNames
import Portty.Host.Download
import Portty.App.Echo
import Portty.App.EchoConfidence
import Portty.Lib.Grid
import Portty.App.EchoScreen
import Portty.Lib.Pieces
import Portty.App.PermissionLabel
import Portty.App.DecisionStorage
import Portty.Lib.Base64
import Portty.Transport.Ticket
import Portty.Transport.SealNumbers
import Portty.Lib.Tally
import Portty.Host.Staging
import Portty.Transport.PairingLimits
import Portty.Transport.Wordlist
import Portty.Lib.Tokens
import Portty.Transport.Phrase
import Portty.Lib.Utf16
import Portty.App.ImeInput
import Portty.Host.Verbatim
import Portty.Host.ActiveDevices
import Portty.Lib.OsPath
import Portty.Host.Workspace
import Portty.Lib.Evict
import Portty.Host.EventLog
import Portty.Host.EventLogCeiling
import Portty.Lib.Calls
import Portty.Lib.Directory
import Portty.Transport.FileStore
import Portty.Transport.FileStoreDurable
import Portty.Lib.FileTree
import Portty.Host.AcpFiles
import Portty.Lib.Prefix
import Portty.App.StableJson
import Portty.Lib.Replica
import Portty.Host.Sessions
import Portty.Lib.Broadcast
import Portty.Host.SessionsShown
import Portty.Host.Doorbell
import Portty.Host.DaemonLog
import Portty.Lib.Mru
import Portty.Phone.PushWake

import LanguageClient.Main
import LanguageClient.Client.Script
import LanguageClient.Pending.Script
import LanguageClient.Router.Script
import LanguageClient.ServerProcess.Script
import LanguageClient.Signal.Script
import LanguageClient.Proofs.Frame.RoundTrip
import LanguageClient.Proofs.Pending.Script
import LanguageClient.Proofs.Frame.Resync
import LanguageClient.Proofs.Reentry.Course
import LanguageClient.Proofs.Signal.Uses
import LanguageClient.Proofs.Signal.Emission
import LanguageClient.Proofs.Reentry.Contract
import LanguageClient.Proofs.ServerProcess.Child
import LanguageClient.Proofs.ServerProcess.Scene
import LanguageClient.Proofs.ServerProcess.Reading
import LanguageClient.Proofs.ServerProcess.Order
import LanguageClient.Proofs.ServerProcess.Listening
import LanguageClient.Proofs.ServerProcess.ExitCodes
import LanguageClient.Proofs.Pending.Deadlines
import LanguageClient.Proofs.Catalog.Discovery
import LanguageClient.Proofs.Client.Uses
import LanguageClient.Proofs.Client.Unready
import LanguageClient.Proofs.Client.Silence
import LanguageClient.Proofs.Client.Ending
import LanguageClient.Proofs.Path.FileUri
import LanguageClient.Proofs.ServerConfig.Nearest
import LanguageClient.Proofs.ServerProcess.Launch
import LanguageClient.Proofs.Signal.Lifetimes
import LanguageClient.Proofs.Pending.Batch
import LanguageClient.Proofs.Pending.AnyOrder
import LanguageClient.Client.Handshake
import LanguageClient.Client.Editing
import LanguageClient.Proofs.Reentry.Restraint
import LanguageClient.Proofs.Client.Deeds
import LanguageClient.Proofs.Client.Sparing
import LanguageClient.Proofs.Client.StderrTail
import LanguageClient.Proofs.Client.StderrLines
import LanguageClient.Proofs.Client.Refusal
import LanguageClient.Proofs.Client.Stopping
import LanguageClient.Proofs.Catalog.Launchable
import LanguageClient.Proofs.Documents
import LanguageClient.Proofs.Router
import LanguageClient.Proofs.Cli.Refusal
import LanguageClient.Proofs.Path.Extension
import LanguageClient.Proofs.Environment
import LanguageClient.Proofs.Frame.Scan
import LanguageClient.Proofs.ServerProcess.Writing
import LanguageClient.Proofs.Frame.Messages
import LanguageClient.Proofs.ServerProcess.Script
import LanguageClient.Proofs.Host.Pattern
import LanguageClient.Proofs.Host.Copy

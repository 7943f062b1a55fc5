import FileStash.Main
import FileStash.Proofs.Connection.Credentials
import FileStash.Proofs.FileCache.Clearance
import FileStash.Proofs.FileCache.Confinement
import FileStash.Proofs.FileCache.Content
import FileStash.Proofs.FileCache.ErrorKinds
import FileStash.Proofs.FileCache.LimitGate
import FileStash.Proofs.FileCache.LimitedLifetime
import FileStash.Proofs.FileCache.Names
import FileStash.Proofs.FileCache.RestoreEffect
import FileStash.Proofs.FileCache.SharedCache
import FileStash.Proofs.FileCache.Shelf
import FileStash.Proofs.FileTree.Descent
import FileStash.Proofs.Logging.OnePerPath
import FileStash.Proofs.Logging.Surfacing
import FileStash.Proofs.Session.Batches
import FileStash.Proofs.Session.Expiry
import FileStash.Proofs.Session.HashReaders
import FileStash.Proofs.Session.Independence
import FileStash.Proofs.Session.Members
import FileStash.Proofs.Session.RejectedWrite
import FileStash.Proofs.Session.Sequences
import FileStash.Proofs.Session.TypedRoundTrip
import FileStash.Proofs.Store.Exchange
import FileStash.Proofs.Store.Indeterminate
import FileStash.Proofs.Store.RaisedErrors
import FileStash.Proofs.Sweep.OwnLog
import FileStash.Proofs.Sweep.Selection
import FileStash.Proofs.Sweep.Sparing
import FileStash.Registry
import FileStash.Server.Scripted
import FileStash.Store.Collection
import FileStash.Text.Line
import FileStash.Proofs.Connection.Schemeless
import FileStash.Proofs.Number.Rounding
import FileStash.Proofs.Sweep.Size
import FileStash.Proofs.Settings.Precedence
import FileStash.Proofs.Settings.Accepted
import FileStash.Proofs.Settings.Wiring

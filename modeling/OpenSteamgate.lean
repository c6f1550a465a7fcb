import OpenSteamgate.Enq.Uniqueness
import OpenSteamgate.Enq.Masks
import OpenSteamgate.Adt.Ledgers
import OpenSteamgate.Inflate.Correctness
import OpenSteamgate.Inflate.Mirror
import OpenSteamgate.Tables.SecondaryKeys
import OpenSteamgate.Sxml.Transcoding
import OpenSteamgate.Sxml.Pull
import OpenSteamgate.Gateway.Batch
import OpenSteamgate.Zip.Layout
import OpenSteamgate.Zip.FailedOpen
import OpenSteamgate.Tpl.Literal
import OpenSteamgate.Tpl.Coverage
import OpenSteamgate.Text.Xbuf
import OpenSteamgate.Text.Builtins
import OpenSteamgate.Osql.Inserts
import OpenSteamgate.Osql.Statements
import OpenSteamgate.Osql.Splicing
import OpenSteamgate.Protocols.Framing
import OpenSteamgate.Protocols.Diag
import OpenSteamgate.Protocols.PktLines
import OpenSteamgate.Protocols.BinaryXml
import OpenSteamgate.Protocols.CutRequest
import OpenSteamgate.Protocols.Sessions
import OpenSteamgate.Dataset.Hosts
import OpenSteamgate.Jobs.Endings
import OpenSteamgate.Jobs.Exclusion
import OpenSteamgate.Jobs.Outbox
import OpenSteamgate.Amc.Order
import OpenSteamgate.Files.Binary
import OpenSteamgate.Dialog.RollOut
import OpenSteamgate.Dialog.Luw
import OpenSteamgate.Dialog.Buffer
import OpenSteamgate.Apc.Lifecycle
import OpenSteamgate.Apc.Upgrade
import OpenSteamgate.Gateway.Keys
import OpenSteamgate.Gateway.Exactness
import OpenSteamgate.Gateway.Printing
import OpenSteamgate.Gateway.Multipart
import OpenSteamgate.Gateway.WhereText
import OpenSteamgate.Gateway.Expand
import OpenSteamgate.Arith.Power
import OpenSteamgate.Arith.PackedAdd
import OpenSteamgate.Osql.Numbers
import OpenSteamgate.Jobs.Schedule
import OpenSteamgate.Gateway.Moments
import OpenSteamgate.Rules.Stepping
import OpenSteamgate.Rules.Evaluate
import OpenSteamgate.SqlScript.Lexer

import Ublkera.Lib.Run
import Ublkera.Lib.LittleEndian
import Ublkera.Lib.PosixFs
import Ublkera.Lib.DurableFs
import Ublkera.Lib.Crc
import Ublkera.Lib.WriteCache
import Ublkera.Lib.Json
import Ublkera.Lib.Guarded
import Ublkera.Lib.Mix
import Ublkera.Lib.Chunks
import Ublkera.Lib.Text
import Ublkera.Lib.Decimal
import Ublkera.Lib.Hex
import Ublkera.Lib.Dict
import Ublkera.Lib.Effect
import Ublkera.Lib.BlockLayer
import Ublkera.Era.EraState
import Ublkera.Era.Ranges
import Ublkera.Era.Crc32
import Ublkera.Era.Metadata
import Ublkera.Era.Encoding
import Ublkera.Era.Corruption
import Ublkera.Era.DirtyMap
import Ublkera.Target.IoCmd
import Ublkera.Target.Stamping
import Ublkera.Target.Acking
import Ublkera.Target.MarkWrite
import Ublkera.Target.Params
import Ublkera.Backup.Live
import Ublkera.Backup.Documented
import Ublkera.Meta.MetaPath
import Ublkera.Meta.Save
import Ublkera.Meta.Overlap
import Ublkera.Meta.Race
import Ublkera.Meta.PowerLoss
import Ublkera.Daemon.Lifecycle
import Ublkera.Daemon.Acknowledged
import Ublkera.Daemon.Contract
import Ublkera.Daemon.Manager
import Ublkera.Daemon.Registry
import Ublkera.Daemon.Marker
import Ublkera.Daemon.Sole
import Ublkera.Daemon.Resolve
import Ublkera.Daemon.Serve
import Ublkera.Daemon.Responses
import Ublkera.Daemon.Socket
import Ublkera.Fault.Model
import Ublkera.Fault.Refinement
import Ublkera.Fault.Loss
import Ublkera.Fault.Perform
import Ublkera.Fault.Queue
import Ublkera.Fault.Thaw
import Ublkera.Fault.Sandwich
import Ublkera.Fault.Control
import Ublkera.Fault.Params
import Ublkera.Scenario.Pattern
import Ublkera.Scenario.Line
import Ublkera.Scenario.Grammar
import Ublkera.Scenario.Exec
import Ublkera.Scenario.Direct
import Ublkera.Scenario.Contract
import Ublkera.Scenario.Progress
import Ublkera.Scenario.Shipped
import Ublkera.Backup.Undone
import Ublkera.Chaos.Harness
import Ublkera.Chaos.World
import Ublkera.Chaos.Steps
import Ublkera.Chaos.Race
import Ublkera.Chaos.Operations
import Ublkera.Chaos.Episode
import Ublkera.Chaos.Progress

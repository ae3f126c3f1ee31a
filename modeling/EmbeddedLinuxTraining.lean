import EmbeddedLinuxTraining.Library.Transition
import EmbeddedLinuxTraining.Library.Pthread
import EmbeddedLinuxTraining.Library.Exec
import EmbeddedLinuxTraining.Library.Solo
import EmbeddedLinuxTraining.Library.Outline
import EmbeddedLinuxTraining.Library.Wakeup
import EmbeddedLinuxTraining.Library.Semaphore
import EmbeddedLinuxTraining.Library.Race
import EmbeddedLinuxTraining.Library.BoundedFifo
import EmbeddedLinuxTraining.Library.Framing
import EmbeddedLinuxTraining.Library.Lines
import EmbeddedLinuxTraining.Library.LittleEndian
import EmbeddedLinuxTraining.Library.Ascii
import EmbeddedLinuxTraining.Library.Buffer
import EmbeddedLinuxTraining.Library.Heap
import EmbeddedLinuxTraining.Library.RecordWalk
import EmbeddedLinuxTraining.Library.Crc
import EmbeddedLinuxTraining.Library.Fallible
import EmbeddedLinuxTraining.Library.Json
import EmbeddedLinuxTraining.Library.JsonObject
import EmbeddedLinuxTraining.Library.JsonText
import EmbeddedLinuxTraining.Library.Strtol
import EmbeddedLinuxTraining.Library.Binary64
import EmbeddedLinuxTraining.Library.Strtod
import EmbeddedLinuxTraining.Library.Printf
import EmbeddedLinuxTraining.Library.Scanf
import EmbeddedLinuxTraining.Lib.Crc32
import EmbeddedLinuxTraining.Time1.GetInt
import EmbeddedLinuxTraining.PipeDup.Program
import EmbeddedLinuxTraining.Echo.Program
import EmbeddedLinuxTraining.Echo.Session
import EmbeddedLinuxTraining.Echo.WriteLoops
import EmbeddedLinuxTraining.Counter.Program
import EmbeddedLinuxTraining.Counter.Counting
import EmbeddedLinuxTraining.Counter.Synchronised
import EmbeddedLinuxTraining.Counter.Spinlock
import EmbeddedLinuxTraining.Counter.Racecond
import EmbeddedLinuxTraining.ThreadPool.TaskQueue
import EmbeddedLinuxTraining.ThreadPool.Program
import EmbeddedLinuxTraining.ThreadPool.Fifo
import EmbeddedLinuxTraining.ThreadPool.ExactlyOnce
import EmbeddedLinuxTraining.ThreadPool.Submissions
import EmbeddedLinuxTraining.ThreadPool.Drain
import EmbeddedLinuxTraining.ThreadPool.MainProgram
import EmbeddedLinuxTraining.ThreadPool.EndToEnd
import EmbeddedLinuxTraining.ProducerConsumer.Program
import EmbeddedLinuxTraining.ProducerConsumer.Fifo
import EmbeddedLinuxTraining.ProducerConsumer.LabMultithreadingDebug
import EmbeddedLinuxTraining.ProducerConsumer.ProducerConsumer2
import EmbeddedLinuxTraining.ProducerConsumer.CleanStop
import EmbeddedLinuxTraining.ProducerConsumer.Wakeups
import EmbeddedLinuxTraining.RaceCrash.Program
import EmbeddedLinuxTraining.RaceCrash.Store
import EmbeddedLinuxTraining.RaceCrash.OutOfMemory
import EmbeddedLinuxTraining.Ipc.Message
import EmbeddedLinuxTraining.Ipc.WireFormat
import EmbeddedLinuxTraining.Ipc.Socket
import EmbeddedLinuxTraining.Ipc.SharedMemory
import EmbeddedLinuxTraining.Ipc.Delivery
import EmbeddedLinuxTraining.Ipc.Attach
import EmbeddedLinuxTraining.Ipc.SelfConsistency
import EmbeddedLinuxTraining.CJSON.Program
import EmbeddedLinuxTraining.CJSON.Memory
import EmbeddedLinuxTraining.CJSON.Standard
import EmbeddedLinuxTraining.CJSON.Continuation
import EmbeddedLinuxTraining.CJSON.Print
import EmbeddedLinuxTraining.CJSON.PrintMemory
import EmbeddedLinuxTraining.CJSON.PrintText
import EmbeddedLinuxTraining.CJSON.Printing
import EmbeddedLinuxTraining.CJSON.RoundTrip
import EmbeddedLinuxTraining.Telemetry.Config
import EmbeddedLinuxTraining.Telemetry.ConfigRead
import EmbeddedLinuxTraining.Telemetry.ConfigText
import EmbeddedLinuxTraining.Telemetry.Program
import EmbeddedLinuxTraining.Telemetry.Stand
import EmbeddedLinuxTraining.Telemetry.Outline
import EmbeddedLinuxTraining.Telemetry.Propagation
import EmbeddedLinuxTraining.Telemetry.Consistency
import EmbeddedLinuxTraining.Telemetry.Timer
import EmbeddedLinuxTraining.Telemetry.Message
import EmbeddedLinuxTraining.Telemetry.MessageLength
import EmbeddedLinuxTraining.Telemetry.Encoding
import EmbeddedLinuxTraining.Telemetry.ClientExample
import EmbeddedLinuxTraining.Telemetry.Connections
import EmbeddedLinuxTraining.Telemetry.Framing
import EmbeddedLinuxTraining.Telemetry.Simulation
import EmbeddedLinuxTraining.Inotify.EventWalk

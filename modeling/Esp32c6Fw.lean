import Esp32c6Fw.Lib.Mmio
import Esp32c6Fw.Wdt.Registers
import Esp32c6Fw.Wdt.Driver
import Esp32c6Fw.Wdt.Mode
import Esp32c6Fw.Wdt.Startup
import Esp32c6Fw.Lib.Rely
import Esp32c6Fw.Stub.Io
import Esp32c6Fw.UsbSerialJtag.Device
import Esp32c6Fw.UsbSerialJtag.Driver
import Esp32c6Fw.UsbSerialJtag.Console
import Esp32c6Fw.UsbSerialJtag.Flush
import Esp32c6Fw.Espctl.Slip
import Esp32c6Fw.Lib.Script
import Esp32c6Fw.Lib.Trace
import Esp32c6Fw.Espctl.Protocol
import Esp32c6Fw.Espctl.Flash
import Esp32c6Fw.Espctl.Receive
import Esp32c6Fw.Espctl.Framing
import Esp32c6Fw.Espctl.Talk
import Esp32c6Fw.Espctl.Failure
import Esp32c6Fw.Espctl.Transfer
import Esp32c6Fw.Espctl.Stream
import Esp32c6Fw.Espctl.Orderly
import Esp32c6Fw.Espctl.Matching
import Esp32c6Fw.Espctl.Device
import Esp32c6Fw.Docskit.Fields
import Esp32c6Fw.Docskit.Header
import Esp32c6Fw.Docskit.Layout
import Esp32c6Fw.Docskit.Consistency
import Esp32c6Fw.Wdt.Calls
import Esp32c6Fw.Wdt.Lock
import Esp32c6Fw.Wdt.Feed
import Esp32c6Fw.Lib.Interleave
import Esp32c6Fw.Wdt.Interference
import Esp32c6Fw.Imager.Image
import Esp32c6Fw.Imager.Loader
import Esp32c6Fw.Lib.Arena
import Esp32c6Fw.Stub.Sbrk
import Esp32c6Fw.Docskit.Macros
import Esp32c6Fw.Stub.Stack
import Esp32c6Fw.Espctl.Frames
import Esp32c6Fw.Espctl.Methods
import Esp32c6Fw.Espctl.Hostile
import Esp32c6Fw.Espctl.Decode
import Esp32c6Fw.Espctl.Connect
import Esp32c6Fw.Espctl.Ending
import Esp32c6Fw.Lib.Interchange
import Esp32c6Fw.Stub.Math
import Esp32c6Fw.Espctl.Contract
import Esp32c6Fw.Espctl.Strict
import Esp32c6Fw.Espctl.Retry
import Esp32c6Fw.Docskit.Order
import Esp32c6Fw.Docskit.Unparsable
import Esp32c6Fw.Docskit.Names
import Esp32c6Fw.Lib.Transfer
import Esp32c6Fw.Stub.Partial
import Esp32c6Fw.Uart.Device
import Esp32c6Fw.Uart.Driver
import Esp32c6Fw.Uart.Transmit
import Esp32c6Fw.Boot.Head
import Esp32c6Fw.Lib.Memory
import Esp32c6Fw.Lib.Extents
import Esp32c6Fw.Lib.Gaps
import Esp32c6Fw.Lib.Simulation
import Esp32c6Fw.Picolibc.LocalMalloc
import Esp32c6Fw.Picolibc.Malloc
import Esp32c6Fw.Picolibc.FreeList
import Esp32c6Fw.Picolibc.Free
import Esp32c6Fw.Picolibc.Heap
import Esp32c6Fw.Picolibc.Sbrk
import Esp32c6Fw.Picolibc.Alloc
import Esp32c6Fw.Picolibc.Realloc
import Esp32c6Fw.Picolibc.Memalign
import Esp32c6Fw.Picolibc.Store
import Esp32c6Fw.Picolibc.Related
import Esp32c6Fw.Picolibc.Refinement
import Esp32c6Fw.Picolibc.Runs
import Esp32c6Fw.Espctl.Sequence
import Esp32c6Fw.Boot.Linking
import Esp32c6Fw.Boot.Deploy
import Esp32c6Fw.Lib.Output
import Esp32c6Fw.Lib.Formatted
import Esp32c6Fw.Stdio.Format
import Esp32c6Fw.Stdio.Vfprintf
import Esp32c6Fw.Stdio.Parsing
import Esp32c6Fw.Stdio.Digits
import Esp32c6Fw.Stdio.Printing
import Esp32c6Fw.Stdio.Conforming
import Esp32c6Fw.Stdio.Snprintf
import Esp32c6Fw.Stdio.Console

import Phix.Foundation.Word
import Phix.Common
import Phix.Heap.Table
import Phix.Foundation.Runs
import Phix.Heap.Scan
import Phix.Heap.Marking
import Phix.Foundation.Extents
import Phix.Heap.Allocation
import Phix.Heap.Ownership
import Phix.Foundation.Traces
import Phix.Heap.System
import Phix.Heap.Containment
import Phix.Heap.Leak
import Phix.Foundation.ByteMemory
import Phix.Memory.KernelHeap
import Phix.Foundation.AddressSpace
import Phix.Memory.Paging
import Phix.Memory.Chunk
import Phix.Memory.Growth
import Phix.Memory.NewChunk
import Phix.Memory.Directories
import Phix.Memory.FreeBlocks
import Phix.Memory.PagingSystem
import Phix.Loader.Elf
import Phix.Task.Kernel
import Phix.Task.Process
import Phix.Task.Free
import Phix.Task.Malloc
import Phix.Task.NewTask
import Phix.Memory.Locality
import Phix.Foundation.Regions
import Phix.Memory.Requests
import Phix.Memory.Gains
import Phix.Task.Mapping
import Phix.Task.Faithful
import Phix.Disk.Streamer
import Phix.Fs.Fat16
import Phix.Fs.Reading
import Phix.Fs.Names
import Phix.Fs.FileSystem
import Phix.Fs.Path
import Phix.Fs.Directory
import Phix.Fs.Lookup
import Phix.Fs.Rendering
import Phix.Fs.File
import Phix.Fs.Position
import Phix.Fs.Seeking
import Phix.Fs.Growth
import Phix.Fs.Opening
import Phix.Fs.Balance
import Phix.Fs.Room
import Phix.Fs.Descriptors
import Phix.Fs.Table
import Phix.Fs.Interference
import Phix.Fs.Resolution
import Phix.Fs.Scanning
import Phix.Memory.Keeping
import Phix.Task.Failure
import Phix.Foundation.Readings
import Phix.Loader.Reads
import Phix.Console.Terminal
import Phix.Console.Backspace
import Phix.Foundation.WordStack
import Phix.Foundation.Processor
import Phix.Foundation.Wrapping
import Phix.Fs.Drive
import Phix.Foundation.Segments
import Phix.Fs.Components
import Phix.Fs.Cursor
import Phix.Memory.Neutral
import Phix.Memory.Refusal
import Phix.Foundation.Links
import Phix.Task.Tasks
import Phix.Foundation.Rings
import Phix.Keyboard.Keyboard
import Phix.Keyboard.Overflow
import Phix.Task.Threads
import Phix.Keyboard.Delivery
import Phix.Task.Images
import Phix.Task.Elf
import Phix.Task.Entry
import Phix.Task.Start
import Phix.Memory.Exact
import Phix.Task.Publishing
import Phix.Disk.Buffer
import Phix.Fs.Chain
import Phix.Fs.Pieces
import Phix.Task.Context
import Phix.Foundation.Strings
import Phix.Task.Copying
import Phix.Memory.Walk
import Phix.Task.Traceless
import Phix.Task.Exec
import Phix.Fs.Mounting
import Phix.Memory.Granted
import Phix.Fs.Buffers
import Phix.Task.ElfLoad
import Phix.Fs.Payloads
import Phix.Fs.Arithmetic
import Phix.Fs.EndOfFile
import Phix.Task.Bounds
import Phix.Boot.Gdt
import Phix.Heap.FirstFit
import Phix.Foundation.Tokens
import Phix.Stdlib.Strtok
import Phix.Stdlib.Tokenising
import Phix.Foundation.Numerals
import Phix.Text.Itoa
import Phix.Text.Printf
import Phix.Stdlib.Readline
import Phix.Text.Format
import Phix.Fs.Slots
import Phix.Task.Loads
import Phix.Task.UserHeap
import Phix.Foundation.AtaDevice
import Phix.Disk.Controller
import Phix.Disk.PortStream
import Phix.Foundation.InterruptGates
import Phix.Interrupts.Idt
import Phix.Foundation.Traps
import Phix.Interrupts.SystemCall
import Phix.Interrupts.System
import Phix.Memory.Sparing
import Phix.Task.Lending
import Phix.Interrupts.Calls
import Phix.Task.Programs
import Phix.Interrupts.Stores
import Phix.Interrupts.Running
import Phix.Interrupts.Isolation
import Phix.Interrupts.Keys
import Phix.Interrupts.Separation
import Phix.Task.Confinement
import Phix.Task.Ownership

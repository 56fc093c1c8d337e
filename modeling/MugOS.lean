import MugOS.Lib.Run
import MugOS.Lib.WordBitmap
import MugOS.Lib.Probe
import MugOS.Memory
import MugOS.PMM
import MugOS.PMMBits
import MugOS.PMMRun
import MugOS.PMMMasks
import MugOS.PMMFirstFit
import MugOS.PageSource
import MugOS.HashmapRun
import MugOS.HashmapGrowth
import MugOS.HashmapFreeSlots
import MugOS.Lib.RadixTree
import MugOS.Lib.Ring
import MugOS.Lib.Circular
import MugOS.Scancode
import MugOS.ScancodeEvents
import MugOS.Ringbuffer
import MugOS.RingbufferInterrupts
import MugOS.LinkedList
import MugOS.LinkedListRun
import MugOS.MemoryMap
import MugOS.MemoryMapInit
import MugOS.MemoryMapSquash
import MugOS.PMMFrames
import MugOS.PagingExact
import MugOS.PagingRun
import MugOS.HeapPages
import MugOS.Heap
import MugOS.HeapPool
import MugOS.HeapInfo
import MugOS.HeapCache
import MugOS.HeapSafety
import MugOS.HeapProgress
import MugOS.HeapRealloc
import MugOS.HeapMoves
import MugOS.HeapStale
import MugOS.HeapRoom
import MugOS.Lib.Copying
import MugOS.MemoryFunctions
import MugOS.Hash
import MugOS.PMMInit
import MugOS.Printf
import MugOS.PrintfText
import MugOS.PrintfNumbers
import MugOS.PrintfBounds
import MugOS.PrintfStream
import MugOS.Lib.Outcome
import MugOS.LinkedListFamily
import MugOS.SlabAllocator
import MugOS.SlabGeometry
import MugOS.SlabCalls
import MugOS.SlabRecursion
import MugOS.SlabInv
import MugOS.SlabMoves
import MugOS.SlabGrowth
import MugOS.SlabCaches
import MugOS.SlabRun
import MugOS.Time
import MugOS.ACPI
import MugOS.IOAPIC
import MugOS.KeyboardModifiers
import MugOS.KeyboardNumpad
import MugOS.KeyboardCallbacks
import MugOS.ScancodeSet2Events
import MugOS.LockKeysSets
import MugOS.SerialOutput
import MugOS.SerialTransparency
import MugOS.Font
import MugOS.Framebuffer
import MugOS.FramebufferTerminal
import MugOS.PagingPage
import MugOS.Lib.Footprint
import MugOS.ACPIReads
import MugOS.Lib.Scaling
import MugOS.TimeConversion
import MugOS.TimeSleep
import MugOS.TimeDelay
import MugOS.TimeCalibration
import MugOS.FramebufferPixels
import MugOS.FramebufferPitch
import MugOS.FramebufferRectangles
import MugOS.FramebufferZoom
import MugOS.Lib.Packed
import MugOS.Fat12
import MugOS.Fat
import MugOS.FatRead
import MugOS.FatNames
import MugOS.FatOpen
import MugOS.FatHistory
import MugOS.FatTool
import MugOS.ACPIPasses
import MugOS.ACPIMalformed
import MugOS.ACPIMapping
import MugOS.Logging
import MugOS.Hexdump
import MugOS.Lib.Hoare
import MugOS.VGA
import MugOS.VGATerminal
import MugOS.I8042
import MugOS.I8042Messages
import MugOS.PS2Mouse
import MugOS.PS2Init
import MugOS.Lib.PriorityController
import MugOS.IRQ
import MugOS.Strings
import MugOS.VFS
import MugOS.DescriptorTables
import MugOS.Disk

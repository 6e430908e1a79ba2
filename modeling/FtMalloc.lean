import FtMalloc.Lib.Memory
import FtMalloc.Lib.Region
import FtMalloc.Lib.Bitmap
import FtMalloc.Lib.PowerRound
import FtMalloc.Lib.Run
import FtMalloc.Lib.FirstFree
import FtMalloc.Lib.Numeral
import FtMalloc.Lib.TwoRuns
import FtMalloc.Lib.SameWrites
import FtMalloc.Lib.Unless
import FtMalloc.Lib.Delimits
import FtMalloc.Heap
import FtMalloc.PageSize
import FtMalloc.Code
import FtMalloc.FreeZone
import FtMalloc.Layout
import FtMalloc.Headers
import FtMalloc.Traverse
import FtMalloc.Malloc
import FtMalloc.Effects
import FtMalloc.Mapping
import FtMalloc.Ownership
import FtMalloc.Realloc
import FtMalloc.Calls
import FtMalloc.World
import FtMalloc.Safety
import FtMalloc.Threads
import FtMalloc.Pointers
import FtMalloc.Recovery
import FtMalloc.Resize
import FtMalloc.SystemCalls
import FtMalloc.Accounts
import FtMalloc.Slots
import FtMalloc.Refinement
import FtMalloc.Printf
import FtMalloc.Writes
import FtMalloc.Expansion
import FtMalloc.Formats
import FtMalloc.Lines
import FtMalloc.ShowAllocMem
import FtMalloc.Report
import FtMalloc.FailedWrites
import FtMalloc.ExitPaths
import FtMalloc.Lock
import FtMalloc.SlotCodes
import FtMalloc.LargePath
import FtMalloc.Calloc
import FtMalloc.Errno
import FtMalloc.Alike
import FtMalloc.FreeOrder
import FtMalloc.Views
import FtMalloc.Classes
import FtMalloc.Fprintf
import FtMalloc.WriteErrors
import FtMalloc.Conversions
import FtMalloc.Digits
import FtMalloc.Machine
import FtMalloc.Observe
import FtMalloc.Equations
import FtMalloc.Local
import FtMalloc.Linear
import FtMalloc.Placement
import FtMalloc.ReadBack
import FtMalloc.Residue
import FtMalloc.Overrun
import FtMalloc.PageCache
import FtMalloc.ExitMessage
import FtMalloc.Pieces
import FtMalloc.Occupancy

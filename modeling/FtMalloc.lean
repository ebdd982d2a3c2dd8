import FtMalloc.Lib.ByteMem
import FtMalloc.Lib.Bitmap
import FtMalloc.Lib.DList
import FtMalloc.Lib.DListFamily
import FtMalloc.Lib.Prog
import FtMalloc.Lib.Interleave
import FtMalloc.Source.Layout
import FtMalloc.Source.World
import FtMalloc.Source.List
import FtMalloc.Source.Malloc
import FtMalloc.Source.Bonus
import FtMalloc.Source.Atomic
import FtMalloc.Abstract.Heap
import FtMalloc.Abstract.Shape
import FtMalloc.Abstract.Steps
import FtMalloc.Abstract.Calls
import FtMalloc.Abstract.Supply
import FtMalloc.Abstract.Held
import FtMalloc.Refine.Rep
import FtMalloc.Refine.Links
import FtMalloc.Refine.Create
import FtMalloc.Refine.Slots
import FtMalloc.Refine.Alloc
import FtMalloc.Refine.Free
import FtMalloc.Refine.Realloc
import FtMalloc.Refine.Bonus
import FtMalloc.Run.Client
import FtMalloc.Run.Invariant
import FtMalloc.Run.Observe
import FtMalloc.Run.Bonus
import FtMalloc.Run.Threads
import FtMalloc.Run.Interference
import FtMalloc.Run.Interleaving
import FtMalloc.Results.Integrity
import FtMalloc.Results.Mappings
import FtMalloc.Results.Failure
import FtMalloc.Results.Alignment
import FtMalloc.Results.Sizes
import FtMalloc.Results.Refinement
import FtMalloc.Results.Threads
import FtMalloc.Results.Resizing
import FtMalloc.Run.Report
import FtMalloc.Run.Accounting
import FtMalloc.Results.Accounting
import FtMalloc.Abstract.Spare
import FtMalloc.Results.Hoarding
import FtMalloc.Results.Leaks
import FtMalloc.Lib.Mutexes
import FtMalloc.Run.Points
import FtMalloc.Run.Sections
import FtMalloc.Run.Following
import FtMalloc.Results.Locks
import FtMalloc.Results.Startup
import FtMalloc.Refine.Nodes
import FtMalloc.Run.Nodes
import FtMalloc.Source.Traverse
import FtMalloc.Results.Watching
import FtMalloc.Refine.Footprint
import FtMalloc.Results.Independence
import FtMalloc.Refine.Commute
import FtMalloc.Run.Classes
import FtMalloc.Results.Classes
import FtMalloc.Results.LargeStore
import FtMalloc.Lib.Checked
import FtMalloc.Source.Arithmetic
import FtMalloc.Results.Layout
import FtMalloc.Results.Foreign
import FtMalloc.Lib.Text
import FtMalloc.Source.Dump
import FtMalloc.Results.Dump
import FtMalloc.Lib.Exec
import FtMalloc.Lib.Numeral
import FtMalloc.Source.Printf
import FtMalloc.Abstract.Format
import FtMalloc.Refine.Output
import FtMalloc.Refine.Printf
import FtMalloc.Results.Printf
import FtMalloc.Results.Conversions
import FtMalloc.Source.Libft
import FtMalloc.Source.Numbers
import FtMalloc.Results.Numbers
import FtMalloc.Refine.Libft
import FtMalloc.Results.Trim
import FtMalloc.Results.Split
import FtMalloc.Abstract.Number
import FtMalloc.Results.Atoi
import FtMalloc.Source.Slots
import FtMalloc.Results.Bitmap
import FtMalloc.Results.Lists
import FtMalloc.Lib.Dialogue
import FtMalloc.Lib.Terminating
import FtMalloc.Abstract.Private
import FtMalloc.Run.Clients
import FtMalloc.Source.ThreadTest
import FtMalloc.Results.Clients
import FtMalloc.Results.ThreadTest
import FtMalloc.Run.Sequential
import FtMalloc.Results.Sequential
import FtMalloc.Results.Returns
import FtMalloc.Abstract.Turns
import FtMalloc.Run.Turns
import FtMalloc.Results.Shared
import FtMalloc.Lib.Reader
import FtMalloc.Abstract.Scanf
import FtMalloc.Source.Debug
import FtMalloc.Results.Debug
import FtMalloc.Source.Report
import FtMalloc.Results.Listing
import FtMalloc.Results.Report
import FtMalloc.Abstract.Moved
import FtMalloc.Results.Placement

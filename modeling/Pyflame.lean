import Pyflame.Library.Interaction
import Pyflame.Library.Layers
import Pyflame.Library.UnorderedMap
import Pyflame.Library.ByteMemory
import Pyflame.Library.LinkedList
import Pyflame.Library.Counter
import Pyflame.Library.Reading
import Pyflame.Library.Utf8
import Pyflame.Library.Fuel
import Pyflame.Text
import Pyflame.Numerals
import Pyflame.Frame
import Pyflame.Addresses
import Pyflame.Sys
import Pyflame.Ptrace
import Pyflame.Wait
import Pyflame.Frob
import Pyflame.Heap
import Pyflame.Current
import Pyflame.Pages
import Pyflame.LineTable
import Pyflame.Addr2Line
import Pyflame.Strings
import Pyflame.Cycles
import Pyflame.Snapshot
import Pyflame.Report
import Pyflame.FlameChart
import Pyflame.Profile
import Pyflame.Prober
import Pyflame.ProbeRuns
import Pyflame.Counts
import Pyflame.Ticks
import Pyflame.Kernel
import Pyflame.SingleStep
import Pyflame.Signals
import Pyflame.ChildThreads
import Pyflame.Undo
import Pyflame.Session
import Pyflame.Namespace
import Pyflame.Descriptors
import Pyflame.Symbol
import Pyflame.SymbolTable
import Pyflame.Markers
import Pyflame.Fields
import Pyflame.Mapping
import Pyflame.Bounds
import Pyflame.Readable
import Pyflame.Aslr
import Pyflame.PyFrob
import Pyflame.Relocation
import Pyflame.Maps
import Pyflame.Main
import Pyflame.Stopped
import Pyflame.Exit
import Pyflame.AwaitExec
import Pyflame.ParseOpts
import Pyflame.ParsePid
import Pyflame.Trampoline
import Pyflame.RedZone
import Pyflame.Footprint
import Pyflame.Untouched
import Pyflame.Leash
import Pyflame.Search
import Pyflame.Mounts
import Pyflame.Dump
import Pyflame.Decode
import Pyflame.Timeline
import Pyflame.Scene
import Pyflame.CommandLine

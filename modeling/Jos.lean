import Jos.Core.Bracket
import Jos.Core.Dialogue
import Jos.Core.Fallible
import Jos.Core.Frames
import Jos.Core.Loop
import Jos.Core.Numeral
import Jos.Core.Overlay
import Jos.Core.Paging
import Jos.Core.Processor
import Jos.Core.Ram
import Jos.Core.Ring
import Jos.Core.Sink
import Jos.Core.Words
import Jos.Lib.Strings
import Jos.Lib.Memmove
import Jos.Lib.Strtol
import Jos.Lib.Compare
import Jos.Lib.Builds
import Jos.Kdebug.Model
import Jos.Kdebug.Search
import Jos.Kdebug.Exact
import Jos.Kdebug.Contract
import Jos.Kdebug.Loops
import Jos.Kdebug.Lookup
import Jos.Kdebug.NoLine
import Jos.Kdebug.Narg
import Jos.Console.Output
import Jos.Console.Fanout
import Jos.Console.Screen
import Jos.Console.Paper
import Jos.Printfmt.Model
import Jos.Printfmt.Emit
import Jos.Printfmt.Text
import Jos.Printfmt.Snprintf
import Jos.Printfmt.Cprintf
import Jos.Printfmt.Compose
import Jos.Printfmt.Directive
import Jos.Printfmt.Number
import Jos.Printfmt.StringConv
import Jos.Printfmt.Star
import Jos.Printfmt.Scan
import Jos.Printfmt.Reparse
import Jos.Printfmt.ErrorCode
import Jos.Console.Text
import Jos.Readline.Model
import Jos.Readline.Edit
import Jos.Readline.Screen
import Jos.Readline.Source
import Jos.Console.Input
import Jos.Console.Devices
import Jos.Console.Modifiers
import Jos.Console.Navigation
import Jos.Console.Queue
import Jos.Console.Init
import Jos.Console.Serial
import Jos.Boot.Model
import Jos.Boot.Readseg
import Jos.Boot.Segments
import Jos.Boot.Sectors
import Jos.Monitor.Model
import Jos.Monitor.Backtrace
import Jos.Monitor.Symbols
import Jos.Monitor.Command
import Jos.Monitor.Runcmd
import Jos.Monitor.Session
import Jos.Monitor.Answers
import Jos.Monitor.Terminal
import Jos.Boot.Image
import Jos.Entry.Model
import Jos.Entry.Window
import Jos.Entry.Start
import Jos.Entry.Booted
import Jos.Kernel.Calls
import Jos.Kernel.Init
import Jos.Kernel.Transcript
import Jos.Kernel.Panic
import Jos.Core.Segment
import Jos.Boot.Gdt
import Jos.Core.RealMode
import Jos.Boot.Start
import Jos.Lib.Copy
import Jos.Monitor.Reset

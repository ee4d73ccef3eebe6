import YiOS.Library.Word
import YiOS.Library.DoRange
import YiOS.Page
import YiOS.PageAlloc
import YiOS.Mmu.Mapping
import YiOS.Mmu.Tree
import YiOS.PageRuns
import YiOS.Mmu.Mapped
import YiOS.Mmu.Spec
import YiOS.Mmu.Levels
import YiOS.Mmu.Runs
import YiOS.Mmu.Sequence
import YiOS.Mmu.Supply
import YiOS.Mmu.Reach
import YiOS.Mmu.Boot
import YiOS.Mmu.Exhaust
import YiOS.Mmu.Remap
import YiOS.Library.Cycle
import YiOS.Sched.Task
import YiOS.Sched.Core
import YiOS.Sched.Fork
import YiOS.Sched.Pick
import YiOS.Sched.Queue
import YiOS.Sched.Switch
import YiOS.Sched.Steps
import YiOS.Sched.Runs
import YiOS.Sched.Wake
import YiOS.Sched.Calls
import YiOS.Sched.Slice
import YiOS.Sched.Switches
import YiOS.Sched.Mask
import YiOS.Sched.Table
import YiOS.Sched.ForkSteps
import YiOS.Sched.Race
import YiOS.Sched.ForkRaces
import YiOS.Sched.Kernel
import YiOS.Sched.Tidy
import YiOS.Sched.Upkeep
import YiOS.Sched.Births
import YiOS.Sched.Nesting
import YiOS.Library.Cpu
import YiOS.Entry.Code
import YiOS.Entry.Irq
import YiOS.Entry.Switch
import YiOS.Library.Text
import YiOS.Printk.Number
import YiOS.Printk.Format
import YiOS.Printk.Pieces
import YiOS.Printk.Lengths
import YiOS.Printk.Bounds
import YiOS.Printk.Items
import YiOS.Printk.Compose
import YiOS.Printk.Width
import YiOS.Printk.Value
import YiOS.Printk.Strings
import YiOS.Printk.Escapes
import YiOS.Sched.Choice
import YiOS.Sched.Failure
import YiOS.Sched.Stale
import YiOS.Printk.Star
import YiOS.Library.Access
import YiOS.Printk.Nested
import YiOS.Mmu.Dump
import YiOS.Mmu.Lines
import YiOS.Mmu.Traversal
import YiOS.Library.Cuts
import YiOS.Mmu.AddrEnd
import YiOS.Mmu.Record
import YiOS.Printk.Scanner
import YiOS.Printk.Local
import YiOS.Printk.Count
import YiOS.Library.Bank
import YiOS.Irqchip.Distributor
import YiOS.Irqchip.Gic
import YiOS.Irqchip.Init
import YiOS.Library.Rearmed
import YiOS.Irqchip.Handle
import YiOS.Lib.Memset
import YiOS.Lib.String
import YiOS.Library.Polled
import YiOS.Serial.PlUart
import YiOS.Sched.Share
import YiOS.Library.Lists
import YiOS.Sched.Lists
import YiOS.Mmu.Repeat
import YiOS.Mmu.Budget
import YiOS.Mmu.Live
import YiOS.Library.Stage1
import YiOS.Mmu.Enable
import YiOS.Library.Stack
import YiOS.Entry.Preempt
import YiOS.System
import YiOS.Library.Program
import YiOS.Library.Cores
import YiOS.Start.EarlyUart
import YiOS.Start.Boot

import MiniProject.Shell.Segments
import MiniProject.Shell.Lexemes
import MiniProject.Shell.Quoting
import MiniProject.Machinery.Descriptors
import MiniProject.Machinery.Files
import MiniProject.Shell.Redirect
import MiniProject.Shell.Launch
import MiniProject.Machinery.Runs
import MiniProject.Shell.Life
import MiniProject.Shell.Leaks
import MiniProject.Machinery.Staging
import MiniProject.Shell.Input
import MiniProject.Shell.Output
import MiniProject.Shell.Delivery
import MiniProject.Shell.Redirections
import MiniProject.Shell.AllOrNothing
import MiniProject.Shell.Flush
import MiniProject.Machinery.Children
import MiniProject.Machinery.SwapRemove
import MiniProject.Shell.Jobs
import MiniProject.Shell.Control
import MiniProject.Shell.Records
import MiniProject.Shell.Groups
import MiniProject.Shell.Waiting
import MiniProject.Shell.Reaping
import MiniProject.Shell.Tracking
import MiniProject.Shell.Session
import MiniProject.Shell.Capacity
import MiniProject.Machinery.Scanf
import MiniProject.Machinery.Strtol
import MiniProject.Shell.Frecency
import MiniProject.Shell.Console
import MiniProject.Shell.Arguments
import MiniProject.Shell.Messages
import MiniProject.Shell.Slots
import MiniProject.Shell.Standing
import MiniProject.Shell.Resumed
import MiniProject.Shell.Sequence
import MiniProject.Shell.Snoop
import MiniProject.Machinery.FirstSeen
import MiniProject.Shell.Syscalls
import MiniProject.Machinery.Qsort
import MiniProject.Shell.Summary
import MiniProject.Shell.Names
import MiniProject.Shell.Removals
import MiniProject.Machinery.Joins
import MiniProject.Shell.CommandString
import MiniProject.Shell.Announced
import MiniProject.Shell.Queue
import MiniProject.Machinery.Greatest
import MiniProject.Shell.Recall
import MiniProject.Shell.Hop
import MiniProject.Shell.Visits
import MiniProject.Shell.Locate
import MiniProject.Machinery.Paths
import MiniProject.Shell.Reveal
import MiniProject.Kernel.Proc
import MiniProject.Kernel.Globals
import MiniProject.Kernel.OneCpu
import MiniProject.Kernel.Slices
import MiniProject.Kernel.Selection
import MiniProject.Kernel.Starvation
import MiniProject.Kernel.Fifo
import MiniProject.Kernel.Turns
import MiniProject.Kernel.Ladder
import MiniProject.Kernel.Loop
import MiniProject.Kernel.Idle
import MiniProject.Kernel.Times
import MiniProject.Kernel.Boosts
import MiniProject.Machinery.Mutex
import MiniProject.Kernel.Wakeups
import MiniProject.Kernel.Naps
import MiniProject.Kernel.Locks
import MiniProject.Kernel.Tasks
import MiniProject.Kernel.Family
import MiniProject.Kernel.Reaps
import MiniProject.Kernel.Kills
import MiniProject.Kernel.Marks
import MiniProject.Kernel.Printk
import MiniProject.Machinery.Regex
import MiniProject.Machinery.TextFile
import MiniProject.Kernel.Procstats
import MiniProject.Shell.Peek
import MiniProject.Shell.Numbering
import MiniProject.Shell.Spy
import MiniProject.Kernel.LogSpace
import MiniProject.Kernel.Sync
import MiniProject.Kernel.PipeWakeups
import MiniProject.Kernel.LineDiscipline
import MiniProject.Kernel.Cells
import MiniProject.User.Grep
import MiniProject.User.Malloc

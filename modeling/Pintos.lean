import Pintos.Lib.Run
import Pintos.Threads.Queues
import Pintos.Threads.Frames
import Pintos.Threads.Framed
import Pintos.Threads.Membership
import Pintos.Threads.Coherent
import Pintos.Threads.QueueMembership
import Pintos.Lib.Fifo
import Pintos.Threads.StrictPriority
import Pintos.Threads.Sleep
import Pintos.Lib.Donation
import Pintos.Threads.Donation
import Pintos.Threads.DonationSteps
import Pintos.Threads.DonationRelease
import Pintos.Threads.PriorityDonation
import Pintos.Userprog.Family
import Pintos.Userprog.Links
import Pintos.Userprog.Wait
import Pintos.Userprog.WaitProtocol
import Pintos.Userprog.Exec
import Pintos.Userprog.ExecProtocol
import Pintos.Vm.Memory
import Pintos.Vm.Tracking
import Pintos.Vm.Isolation
import Pintos.Lib.Trace
import Pintos.Syscall.Fault
import Pintos.Lib.Semaphore
import Pintos.Threads.Semaphores
import Pintos.Userprog.Synch
import Pintos.Threads.LockBooks
import Pintos.Threads.DonationLoop
import Pintos.Threads.Keys
import Pintos.Threads.Eligible
import Pintos.Threads.Signalled
import Pintos.Vm.Slots
import Pintos.Vm.SwapCounter
import Pintos.Vm.Paged
import Pintos.Vm.FaultDecision
import Pintos.Vm.Exiting
import Pintos.Vm.Reloading
import Pintos.Vm.ExitFrees
import Pintos.Filesys.File
import Pintos.Filesys.Counting
import Pintos.Filesys.Contents
import Pintos.Syscall.Descriptors
import Pintos.Syscall.Holding
import Pintos.Syscall.Executables
import Pintos.Syscall.FdTable
import Pintos.Syscall.FdAnswers
import Pintos.Syscall.FdHistory
import Pintos.Syscall.Handler
import Pintos.Syscall.Needs
import Pintos.Syscall.Arguments
import Pintos.Devices.Intq
import Pintos.Devices.IntqFifo
import Pintos.Lib.Exclusive
import Pintos.Memory.Palloc
import Pintos.Memory.PagesApart
import Pintos.Devices.Partition
import Pintos.Utils.Disk
import Pintos.Utils.DiskAgreement
import Pintos.Threads.Interrupts
import Pintos.Filesys.References
import Pintos.Filesys.Directory
import Pintos.Filesys.Format
import Pintos.Filesys.FreeMap
import Pintos.Filesys.Layout
import Pintos.Filesys.Volume
import Pintos.Kernel.Hash
import Pintos.Kernel.HashContents
import Pintos.Kernel.HashIterator
import Pintos.Loading.Arguments
import Pintos.Loading.Segments
import Pintos.Utils.CommandLine
import Pintos.Devices.PartitionScan
import Pintos.Archive.Headers
import Pintos.Filesys.ByteArray
import Pintos.Paging.Boot
import Pintos.Filesys.Mounting
import Pintos.Filesys.Creation
import Pintos.Malloc.Integrity
import Pintos.Libc.Arithmetic
import Pintos.Libc.Sort
import Pintos.Filesys.BitmapFile
import Pintos.Paging.Destroy
import Pintos.Libc.Truncation
import Pintos.Libc.Memmove
import Pintos.Libc.Search
import Pintos.Devices.Calibration
import Pintos.Devices.Rtc
import Pintos.Lib.Runs
import Pintos.Lib.Links
import Pintos.Lists.Ordered
import Pintos.Lists.Sort
import Pintos.Libc.IntegerConversions
import Pintos.Lib.Simulation
import Pintos.Filesys.Lifetimes
import Pintos.Filesys.Removing
import Pintos.Filesys.Histories
import Pintos.Filesys.Reboot
import Pintos.Filesys.FileStore
import Pintos.Filesys.DirectoryMap
import Pintos.Filesys.FileHistories
import Pintos.Devices.Vga
import Pintos.Libc.Random
import Pintos.Devices.IntqSteps
import Pintos.Devices.Keyboard
import Pintos.Devices.Serial
import Pintos.Devices.SerialOrder

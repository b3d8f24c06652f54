import UnionCollegeCode.Lib.Run
import UnionCollegeCode.Lib.EState
import UnionCollegeCode.Lib.OddEven
import UnionCollegeCode.Lib.JavaCollections
import UnionCollegeCode.Lib.Coloring
import UnionCollegeCode.Lib.MergeTree
import UnionCollegeCode.Lib.LevelOrder
import UnionCollegeCode.Lib.Slots
import UnionCollegeCode.Lib.LinkedChain
import UnionCollegeCode.Lib.Monitor
import UnionCollegeCode.Lib.ByteFile
import UnionCollegeCode.Lib.ArgSlots
import UnionCollegeCode.Lib.RefLedger
import UnionCollegeCode.Lib.Tiling
import UnionCollegeCode.Lib.Kahn
import UnionCollegeCode.Lib.FinDigraph
import UnionCollegeCode.Lib.Scanner
import UnionCollegeCode.Lib.Exchange
import UnionCollegeCode.Lib.Assignments
import UnionCollegeCode.Lib.RowReduction
import UnionCollegeCode.Lib.GaussJordan
import UnionCollegeCode.Mpi.Sort
import UnionCollegeCode.Mpi.SortRun
import UnionCollegeCode.Mpi.Blocks
import UnionCollegeCode.Mpi.Vectors
import UnionCollegeCode.Mpi.Merge
import UnionCollegeCode.Mpi.BlockRange
import UnionCollegeCode.Mpi.Normalize
import UnionCollegeCode.Bootcamp.LinkedList
import UnionCollegeCode.Lib.TraceRadical
import UnionCollegeCode.Bremner.Centre
import UnionCollegeCode.Bremner.Quotient
import UnionCollegeCode.Bremner.IdealIdent
import UnionCollegeCode.Bremner.MinPoly
import UnionCollegeCode.Bremner.Radical
import UnionCollegeCode.Lib.Pattern
import UnionCollegeCode.Bremner.Terms
import UnionCollegeCode.Bremner.NewParsers
import UnionCollegeCode.Kami3.ColoredGraph
import UnionCollegeCode.Kami3.WellFormed
import UnionCollegeCode.Kami3.FloodFill
import UnionCollegeCode.Kami3.Level
import UnionCollegeCode.Kami3.Undo
import UnionCollegeCode.Kami3.Prune
import UnionCollegeCode.Kami3.Contraction
import UnionCollegeCode.Kami3.ContractionRun
import UnionCollegeCode.Kami3.Solver
import UnionCollegeCode.Kami3.SolverSearch
import UnionCollegeCode.Kami3.SolverOptimal
import UnionCollegeCode.Kami3.Unsolvable
import UnionCollegeCode.Kami3.Grid
import UnionCollegeCode.Kami3.GraphCalls
import UnionCollegeCode.Kami3.LevelSaves
import UnionCollegeCode.Kami3.LevelHint
import UnionCollegeCode.Kami3.LevelBuilder
import UnionCollegeCode.Kami3.LevelRepository
import UnionCollegeCode.Kami3.LevelCodec
import UnionCollegeCode.Kami3.LevelRun
import UnionCollegeCode.Kami3.SavePlay
import UnionCollegeCode.Kami3.HintInput
import UnionCollegeCode.Kami3.HintRecording
import UnionCollegeCode.Graph.Equality
import UnionCollegeCode.Graph.GetPath
import UnionCollegeCode.OS161.Kernel
import UnionCollegeCode.OS161.Process
import UnionCollegeCode.OS161.Machine
import UnionCollegeCode.OS161.Sections
import UnionCollegeCode.OS161.Effects
import UnionCollegeCode.OS161.Ownership
import UnionCollegeCode.OS161.TableIntegrity
import UnionCollegeCode.OS161.ProcTree
import UnionCollegeCode.OS161.WaitExit
import UnionCollegeCode.OS161.Exit.Path
import UnionCollegeCode.OS161.Synch.SleepLock
import UnionCollegeCode.OS161.Synch.CondVar
import UnionCollegeCode.OS161.Synch.Hangman
import UnionCollegeCode.OS161.ConcurrentList.LinkedList
import UnionCollegeCode.OS161.ConcurrentList.Representation
import UnionCollegeCode.OS161.ConcurrentList.Threads
import UnionCollegeCode.OS161.SharedBuffer
import UnionCollegeCode.Project1.LinkedList
import UnionCollegeCode.Project1.Links
import UnionCollegeCode.Project1.SharedBuffer
import UnionCollegeCode.OS161.Files.FileTable
import UnionCollegeCode.OS161.Files.Syscalls
import UnionCollegeCode.OS161.Files.LockBalance
import UnionCollegeCode.OS161.Files.FileIo
import UnionCollegeCode.OS161.Files.Outcomes
import UnionCollegeCode.OS161.Files.Desk
import UnionCollegeCode.OS161.Files.RefCount
import UnionCollegeCode.OS161.Files.Dup2
import UnionCollegeCode.OS161.Syscall.Dispatch
import UnionCollegeCode.OS161.UserProcess.Image
import UnionCollegeCode.OS161.UserProcess.Fork
import UnionCollegeCode.OS161.UserProcess.ForkReturn
import UnionCollegeCode.OS161.UserProcess.Exec
import UnionCollegeCode.Lib.BubblePass
import UnionCollegeCode.Lib.PathNames
import UnionCollegeCode.OS161.ConcurrentList.Removal
import UnionCollegeCode.OS161.Emufs.Namefile
import UnionCollegeCode.OS161.Emufs.NamefileRight
import UnionCollegeCode.OS161.Files.Lseek
import UnionCollegeCode.OS161.Getcwd
import UnionCollegeCode.OS161.TableLock
import UnionCollegeCode.OS161.Thread.BubblePass
import UnionCollegeCode.OS161.UserProcess.ExecArgs
import UnionCollegeCode.OS161.WaitpidBounds
import UnionCollegeCode.SystemArchitecture.Lab6.InsertionSorts
import UnionCollegeCode.SystemArchitecture.Lab7.MipsList
import UnionCollegeCode.SystemArchitecture.Lab7.LinkedLists
import UnionCollegeCode.SystemArchitecture.Lab7.FreeList
import UnionCollegeCode.SystemArchitecture.Lab7.OutOfNodes
import UnionCollegeCode.Lib.ListRoutines
import UnionCollegeCode.Lib.BigEndian
import UnionCollegeCode.OS161.Bitmap
import UnionCollegeCode.OS161.Sfs.Layout
import UnionCollegeCode.Lib.Holdings
import UnionCollegeCode.OS161.Sfs.Device
import UnionCollegeCode.OS161.Sfs.Bmap
import UnionCollegeCode.OS161.Sfs.Blocks
import UnionCollegeCode.OS161.Sfs.Mapping
import UnionCollegeCode.OS161.Sfs.Truncate
import UnionCollegeCode.Lib.ByteRange
import UnionCollegeCode.OS161.Sfs.Io
import UnionCollegeCode.OS161.Sfs.Transfer
import UnionCollegeCode.OS161.Sfs.ReadWrite
import UnionCollegeCode.OS161.Sfs.Inode
import UnionCollegeCode.OS161.Sfs.Dir
import UnionCollegeCode.OS161.Sfs.Volume
import UnionCollegeCode.OS161.Sfs.Search
import UnionCollegeCode.OS161.Sfs.Slots
import UnionCollegeCode.Lib.KeyedList
import UnionCollegeCode.OS161.Sfs.Vnodes
import UnionCollegeCode.OS161.Sfs.Reclaim
import UnionCollegeCode.OS161.Sfs.Loading
import UnionCollegeCode.OS161.Sfs.Stages
import UnionCollegeCode.OS161.Sfs.Vnops
import UnionCollegeCode.OS161.Sfs.Calls
import UnionCollegeCode.OS161.Sfs.Runs
import UnionCollegeCode.OS161.Sfs.Fsops
import UnionCollegeCode.OS161.Sfs.Sync
import UnionCollegeCode.OS161.Sfs.Mount
import UnionCollegeCode.OS161.Sfs.Mksfs
import UnionCollegeCode.OS161.Sfs.Files
import UnionCollegeCode.OS161.Sfs.Lifetime
import UnionCollegeCode.OS161.Sfs.LostWrites

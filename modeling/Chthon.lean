import Chthon.Lib.ByteMemory
import Chthon.Lib.PathText
import Chthon.Lib.DirectoryTree
import Chthon.Lib.PathResolution
import Chthon.Lib.Run
import Chthon.Lib.CircularQueue
import Chthon.Lib.IntrusiveList
import Chthon.Lib.FlatFile
import Chthon.Lib.Arm64
import Chthon.CString
import Chthon.AbyssModel
import Chthon.AbyssInodes
import Chthon.AbyssRecords
import Chthon.AbyssEdits
import Chthon.AbyssBoot
import Chthon.AbyssAppend
import Chthon.AbyssTree
import Chthon.AbyssCreate
import Chthon.AbyssNaming
import Chthon.AbyssOwnership
import Chthon.AbyssSession
import Chthon.AbyssReach
import Chthon.AbyssContents
import Chthon.AbyssFiles
import Chthon.AbyssOpen
import Chthon.AbyssRemove
import Chthon.RamfsModel
import Chthon.RamfsSession
import Chthon.RamfsNames
import Chthon.RamfsFiles
import Chthon.KernelModel
import Chthon.MessageQueues
import Chthon.VfsModel
import Chthon.VfsRouting
import Chthon.VfsUnlink
import Chthon.MessageModel
import Chthon.ProcessModel
import Chthon.ProcessRuns
import Chthon.ProcessStates
import Chthon.ProcessWaits
import Chthon.ProcessLinks
import Chthon.VfsNamespaces
import Chthon.VfsFilePointers
import Chthon.VfsDescriptors
import Chthon.VfsCapacity
import Chthon.VfsRefusals
import Chthon.MessageRefusals
import Chthon.MessageWaits
import Chthon.CopyMessage
import Chthon.VfsFailures
import Chthon.TrapModel
import Chthon.TrapReturn
import Chthon.RegisterFrames
import Chthon.ContextSwitch
import Chthon.ContextLayout
import Chthon.NamespaceLinks
import Chthon.NamespaceDecay
import Chthon.WorkingDirectory
import Chthon.PathNormalize
import Chthon.ShellCd
import Chthon.ProcessDirectories
import Chthon.AbyssWalks
import Chthon.AbyssListing
import Chthon.AbyssDirectories
import Chthon.AbyssNewDirectory
import Chthon.VfsNames
import Chthon.Lib.BasicBlocks
import Chthon.UserShell
import Chthon.UserShellScan
import Chthon.UserShellMessages
import Chthon.UserShellCommands
import Chthon.UserShellLine
import Chthon.UserShellStack
import Chthon.AbyssAccounting
import Chthon.Lib.LongestMatch
import Chthon.MountLookup
import Chthon.NamespaceComponents
import Chthon.RamfsListing
import Chthon.ReadDirReply
import Chthon.ReadMessage
import Chthon.ComposedPaths
import Chthon.DirectoryQueries
import Chthon.AbyssFileWalks
import Chthon.RecursiveRemoval
import Chthon.Lib.Fields
import Chthon.StringFunctions
import Chthon.KernelHeap
import Chthon.RamfsReads
import Chthon.Lib.LineEditor
import Chthon.UserShellTyping
import Chthon.UserShellListing
import Chthon.ShellLine
import Chthon.SchedulerOrder
import Chthon.MoveMessage
import Chthon.ShellCommands
import Chthon.ShellLoop
import Chthon.VfsFrames
import Chthon.ShellSession
import Chthon.ShellFiles
import Chthon.SystemCalls
import Chthon.UserServices
import Chthon.UserKernel
import Chthon.TrapFiles
import Chthon.StringLoops

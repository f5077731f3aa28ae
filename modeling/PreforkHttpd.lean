import PreforkHttpd.Transition.PartialRun
import PreforkHttpd.Transition.Forking
import PreforkHttpd.Transition.Answered
import PreforkHttpd.Transition.Scheduled
import PreforkHttpd.Transition.Mailbox
import PreforkHttpd.Memory.CArray
import PreforkHttpd.Memory.CString
import PreforkHttpd.Memory.LinkedList
import PreforkHttpd.Memory.BinaryTree
import PreforkHttpd.Memory.TreeSurgery
import PreforkHttpd.Memory.SearchTree
import PreforkHttpd.Memory.RedBlack
import PreforkHttpd.Memory.LinkFields
import PreforkHttpd.Memory.Sequences
import PreforkHttpd.Tree.Rotation
import PreforkHttpd.Tree.RotationSequence
import PreforkHttpd.Tree.RbMacros
import PreforkHttpd.Tree.RbInsert
import PreforkHttpd.Tree.RbRemoveColor
import PreforkHttpd.Tree.RbTraversal
import PreforkHttpd.Tree.RbRemove
import PreforkHttpd.Tree.RbRuns
import PreforkHttpd.Tree.Splay
import PreforkHttpd.Tree.SplayRuns
import PreforkHttpd.Pool.ProcPool
import PreforkHttpd.Pool.Counter
import PreforkHttpd.Pool.Capacity
import PreforkHttpd.Pool.Children
import PreforkHttpd.Pool.Signals
import PreforkHttpd.Pool.ForkTree
import PreforkHttpd.Pool.EndOfStream
import PreforkHttpd.Pool.Leveling
import PreforkHttpd.Pool.Balance
import PreforkHttpd.Pool.Scheduling
import PreforkHttpd.Pool.Registering
import PreforkHttpd.Pool.Readiness
import PreforkHttpd.Pool.Unlinking
import PreforkHttpd.Queue.SingleLists
import PreforkHttpd.Queue.Lists
import PreforkHttpd.Queue.SimpleQueue
import PreforkHttpd.Queue.TailQueue
import PreforkHttpd.Queue.CircleQueue
import PreforkHttpd.Dispatch.System
import PreforkHttpd.Dispatch.HandOff
import PreforkHttpd.Dispatch.Stranding
import PreforkHttpd.Dispatch.Ownership
import PreforkHttpd.Dispatch.Requests
import PreforkHttpd.Dispatch.DescriptorLimit
import PreforkHttpd.Dispatch.Transient
import PreforkHttpd.Dispatch.EventLoop
import PreforkHttpd.Dispatch.WriteBuffer
import PreforkHttpd.Io.Rio
import PreforkHttpd.Io.RioCopies
import PreforkHttpd.Io.Drain
import PreforkHttpd.Io.InterestList
import PreforkHttpd.Io.MarkedStream
import PreforkHttpd.Io.FdPassing
import PreforkHttpd.Io.Streams
import PreforkHttpd.Io.Lines
import PreforkHttpd.Io.HttpFgets
import PreforkHttpd.Io.ReadPrefix
import PreforkHttpd.Io.Readn
import PreforkHttpd.Io.FgetsS
import PreforkHttpd.Io.WriteLoops
import PreforkHttpd.Io.Writen
import PreforkHttpd.Io.WriteS
import PreforkHttpd.Io.Transfer
import PreforkHttpd.Sock.DescriptorTable
import PreforkHttpd.Sock.Addresses
import PreforkHttpd.Sock.OpenListenfd
import PreforkHttpd.Ipc.Queues
import PreforkHttpd.Ipc.Messages
import PreforkHttpd.Conf.FileParam
import PreforkHttpd.Conf.ReadBack
import PreforkHttpd.Conf.Malformed
import PreforkHttpd.Text.Skip
import PreforkHttpd.Path.LexicalWalk
import PreforkHttpd.Http.Calls
import PreforkHttpd.Http.Readline
import PreforkHttpd.Http.LineArrival
import PreforkHttpd.Http.LineResult
import PreforkHttpd.Http.AcceptRequest
import PreforkHttpd.Http.Bounds
import PreforkHttpd.Http.Containment
import PreforkHttpd.Http.Results
import PreforkHttpd.Http.StaleMemory
import PreforkHttpd.Http.Send
import PreforkHttpd.Http.SendLoops
import PreforkHttpd.Http.Resend
import PreforkHttpd.Http.Pages
import PreforkHttpd.Http.PageBytes
import PreforkHttpd.Http.PageHoles
import PreforkHttpd.Http.Receive
import PreforkHttpd.Http.Response
import PreforkHttpd.Http.Disconnect
import PreforkHttpd.Http.Replies
import PreforkHttpd.Http.Descriptors
import PreforkHttpd.Http.ErrorPage

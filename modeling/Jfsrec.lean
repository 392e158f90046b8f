import Jfsrec.Lib.Istream
import Jfsrec.Lib.Closure
import Jfsrec.Lib.Links
import Jfsrec.Lib.Loop
import Jfsrec.Lib.LineEdit
import Jfsrec.Lib.Select
import Jfsrec.Lib.Descent
import Jfsrec.Lib.Throws
import Jfsrec.Lib.Lexical
import Jfsrec.Lib.Trails
import Jfsrec.Lib.SparseFile
import Jfsrec.Lib.Runs
import Jfsrec.Lib.Records
import Jfsrec.Lib.Repeats
import Jfsrec.Operations
import Jfsrec.Resume
import Jfsrec.Ownership
import Jfsrec.Ancestry
import Jfsrec.Parents
import Jfsrec.SingleOwner
import Jfsrec.DtreeEnds
import Jfsrec.Names
import Jfsrec.SharedPaths
import Jfsrec.Attempts
import Jfsrec.Inostamps
import Jfsrec.Generations
import Jfsrec.FreshNames
import Jfsrec.ExtentSizes
import Jfsrec.FileLength
import Jfsrec.XtreeBounds
import Jfsrec.DtreeBounds
import Jfsrec.PrioQueue
import Jfsrec.XtreeLeaves
import Jfsrec.PrioPartition
import Jfsrec.Roots
import Jfsrec.ExtentSanity
import Jfsrec.SkipUnsane
import Jfsrec.Lib.PrefixCode
import Jfsrec.Utf8
import Jfsrec.SlotChains
import Jfsrec.DeviceSize
import Jfsrec.DirTimes
import Jfsrec.Siblings
import Jfsrec.Restarts
import Jfsrec.Survivors
import Jfsrec.RmLoggedInode
import Jfsrec.Handover
import Jfsrec.Copies
import Jfsrec.Reruns
import Jfsrec.Recovery
import Jfsrec.Volume
import Jfsrec.Main
import Jfsrec.Interrupted
import Jfsrec.CopiedVolume
import Jfsrec.MainAgain
import Jfsrec.SameDevice
import Jfsrec.KilledRecovery
import Jfsrec.KilledMain

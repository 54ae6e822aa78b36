import Bbfs.InsertingMap
import Bbfs.Runs
import Bbfs.Forest
import Bbfs.Strings
import Bbfs.Files
import Bbfs.Resolve
import Bbfs.Calls
import Bbfs.Session
import Bbfs.Walks
import Bbfs.Effects
import Bbfs.Outcomes
import Bbfs.Numbers
import Bbfs.FreedCopy
import Bbfs.Meanings
import Bbfs.Freshness
import Bbfs.Types
import Bbfs.Failure
import Bbfs.Names
import Bbfs.Directories
import Bbfs.Root
import Bbfs.Order
import Bbfs.ZeroExtended
import Bbfs.Contents
import Bbfs.Sizes
import Bbfs.Counting
import Bbfs.Census
import Bbfs.Survival
import Bbfs.DotEntries
import Bbfs.Tally
import Bbfs.OpenFiles
import Bbfs.Renaming
import Bbfs.LinkCount
import Bbfs.Placement
import Bbfs.Dangling
import Bbfs.Visit
import Bbfs.Tree
import Bbfs.Streams
import Bbfs.Dialog
import Bbfs.Replay
import Bbfs.FuseCalls
import Bbfs.FuseTable
import Bbfs.FuseOpen
import Bbfs.Refusal
import Bbfs.Removing
import Bbfs.Leftovers
import Bbfs.Symlinks
import Bbfs.Bytes
import Bbfs.Opening
import Bbfs.Creating
import Bbfs.Undoing
import Bbfs.Unlinking
import Bbfs.Attributes
import Bbfs.AttributeList
import Bbfs.ReadingDir
import Bbfs.Composing
import Bbfs.Sentinel
import Bbfs.Bases
import Bbfs.FuseMkdir
import Bbfs.FuseCreat
import Bbfs.FuseRename
import Bbfs.FuseBytes
import Bbfs.FuseStat
import Bbfs.Splitting
import Bbfs.Interleaving
import Bbfs.Handles
import Bbfs.Normal
import Bbfs.PathTree
import Bbfs.FuseTree
import Bbfs.Quiet
import Bbfs.Opens
import Bbfs.Listing
import Bbfs.Describe
import Bbfs.NameTree
import Bbfs.NameViews
import Bbfs.NameCalls
import Bbfs.NameRuns
import Bbfs.FileStore
import Bbfs.StoreRuns
import Bbfs.Building
import Bbfs.FuseMount

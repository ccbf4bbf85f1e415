import BionicTranslation.HeapList
import BionicTranslation.DebugMap
import BionicTranslation.Paging
import BionicTranslation.Segments
import BionicTranslation.SegmentRuns
import BionicTranslation.SegmentBounds
import BionicTranslation.Overwrite
import BionicTranslation.SegmentContents
import BionicTranslation.SegmentProtection
import BionicTranslation.Slots
import BionicTranslation.Bytes
import BionicTranslation.Records
import BionicTranslation.Linker
import BionicTranslation.Unload
import BionicTranslation.FoldRules
import BionicTranslation.LinkFrame
import BionicTranslation.SoinfoLists
import BionicTranslation.LinkSteps
import BionicTranslation.CallFrame
import BionicTranslation.LinkFlags
import BionicTranslation.FindSound
import BionicTranslation.LinkFailure
import BionicTranslation.RefLedger
import BionicTranslation.RefCounts
import BionicTranslation.StrayClose
import BionicTranslation.Teardown
import BionicTranslation.Regions
import BionicTranslation.Ranges
import BionicTranslation.Relr
import BionicTranslation.RelativePacking
import BionicTranslation.RelocSymbols
import BionicTranslation.RelaTables
import BionicTranslation.Aarch64Values
import BionicTranslation.X86Values
import BionicTranslation.UnresolvedRefs
import BionicTranslation.RelTables
import BionicTranslation.RelValues
import BionicTranslation.Loops
import BionicTranslation.SymbolLookup
import BionicTranslation.HashSections
import BionicTranslation.LookupAgree
import BionicTranslation.LookupSafety
import BionicTranslation.DepthFirst
import BionicTranslation.Constructors
import BionicTranslation.SearchTree
import BionicTranslation.LinkStack
import BionicTranslation.NewEdges
import BionicTranslation.NewLibraries
import BionicTranslation.NeededGraph
import BionicTranslation.RoundTrip
import BionicTranslation.LiveRanges
import BionicTranslation.InstanceCalls
import BionicTranslation.Finalisers
import BionicTranslation.Dlfcn
import BionicTranslation.LockNesting
import BionicTranslation.DlsymScopes
import BionicTranslation.Traces
import BionicTranslation.PthreadCalls
import BionicTranslation.LazyMutex
import BionicTranslation.ObjectPages
import BionicTranslation.SignalMask
import BionicTranslation.Aarch64Ranges
import BionicTranslation.Extents
import BionicTranslation.RelroRange
import BionicTranslation.LoadFailure
import BionicTranslation.CStrings
import BionicTranslation.WrapperNames
import BionicTranslation.Splitting
import BionicTranslation.Strlcpy
import BionicTranslation.LibraryPath
import BionicTranslation.LookupScopes
import BionicTranslation.ContainingSymbol
import BionicTranslation.AddressQueries
import BionicTranslation.DynamicOrder
import BionicTranslation.Buffers
import BionicTranslation.HeaderReads
import BionicTranslation.CFunctions
import BionicTranslation.LibcStrlcpy
import BionicTranslation.StrncpyCheck
import BionicTranslation.StringChecks
import BionicTranslation.FiniArray
import BionicTranslation.TimedWaits
import BionicTranslation.DataDirs
import BionicTranslation.OpenLibrary
import BionicTranslation.SearchPaths
import BionicTranslation.OverrideMap
import BionicTranslation.ConfigFiles
import BionicTranslation.Compaction
import BionicTranslation.Environ
import BionicTranslation.EnvInit
import BionicTranslation.OneTimeGuard
import BionicTranslation.Reclaim
import BionicTranslation.Sha1Rounds
import BionicTranslation.Sha1Stream
import BionicTranslation.Substrings
import BionicTranslation.StatusHiding
import BionicTranslation.EnvSessions
import BionicTranslation.LibdlTables
import BionicTranslation.Stubs
import BionicTranslation.LastError
import BionicTranslation.LibrarySearch
import BionicTranslation.RelocatedImage

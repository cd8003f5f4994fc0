import IpoOs.FsOwnership
import IpoOs.FsEnds
import IpoOs.FsTaken
import IpoOs.FsMove
import IpoOs.FsRelease
import IpoOs.FsBitmap
import IpoOs.FsFaults
import IpoOs.FsMounted
import IpoOs.FsCanonical
import IpoOs.FsAncestry
import IpoOs.FsProtected
import IpoOs.FsOpenFiles
import IpoOs.FsListing
import IpoOs.FsWriteText
import IpoOs.Descriptors
import IpoOs.CommandLines
import IpoOs.KmallocReuse
import IpoOs.KmallocSizes
import IpoOs.ProcessHeap
import IpoOs.TerminalTape
import IpoOs.Forest
import IpoOs.EdAgree
import IpoOs.EdDir
import IpoOs.EdNames
import IpoOs.EdGrow
import IpoOs.EdFill
import IpoOs.EdFiles
import IpoOs.EdAppend
import IpoOs.EdOwnership
import IpoOs.EdPaths
import IpoOs.Itoa
import IpoOs.Printf
import IpoOs.Renderers
import IpoOs.Ata
import IpoOs.EdSlots
import IpoOs.FsBlockMap
import IpoOs.Console
import IpoOs.ConsoleShown
import IpoOs.TerminalRows
import IpoOs.LinkedList
import IpoOs.ProcessList
import IpoOs.ProcessNesting
import IpoOs.Loader
import IpoOs.ProcessLaunch
import IpoOs.EdDelete
import IpoOs.FsSpelled
import IpoOs.FsView
import IpoOs.FsStore
import IpoOs.FsStoreRun
import IpoOs.FsStoreCalls
import IpoOs.FsStoreLaws
import IpoOs.FsRefines
import IpoOs.FsUndo
import IpoOs.FsObserve
import IpoOs.FsBoot
import IpoOs.Simulation
import IpoOs.AtaDrive
import IpoOs.EdStore
import IpoOs.ConsoleSession
import IpoOs.KmallocObjects

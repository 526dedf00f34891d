import M65Tool.Guarantees.AppendFailure
import M65Tool.Guarantees.MapKeys
import M65Tool.Guarantees.MapResize
import M65Tool.Guarantees.MapSetFailure
import M65Tool.Guarantees.MemtblDestroy
import M65Tool.Guarantees.MemtblFailure
import M65Tool.Guarantees.MemtblTracking
import M65Tool.Guarantees.SelfAppend
import M65Tool.Guarantees.SigintDiscipline
import M65Tool.Guarantees.StrCopies
import M65Tool.Guarantees.StrFind
import M65Tool.Guarantees.StrOrder
import M65Tool.Guarantees.StrSplit
import M65Tool.Guarantees.StrSplitLoop
import M65Tool.Guarantees.StrWords
import M65Tool.Guarantees.StringContents
import M65Tool.Lib.Splitting
import M65Tool.Source.PublicCalls
import M65Tool.Guarantees.InvalidObjects
import M65Tool.Guarantees.PrintfOutcomes
import M65Tool.Guarantees.AcceptedSizes
import M65Tool.Guarantees.StrScanBounds
import M65Tool.Lib.Fnv1a
import M65Tool.Guarantees.HashFnv1a
import M65Tool.Guarantees.MapIterates
import M65Tool.Guarantees.TopFive
import M65Tool.Lib.FirstFew
import M65Tool.Source.WordSelection
import M65Tool.Source.WordFreq
import M65Tool.Guarantees.CountsBounds
import M65Tool.Lib.FirstSeen
import M65Tool.Source.WordFreqReading
import M65Tool.Guarantees.WordCounts
import M65Tool.Guarantees.MakefileClosed
import M65Tool.Source.Makemake
import M65Tool.Lib.Naming
import M65Tool.Source.MakemakeNames
import M65Tool.Guarantees.ProbeUpdate
import M65Tool.Guarantees.NearKeys
import M65Tool.Guarantees.GrowthArithmetic
import M65Tool.Guarantees.RootSpelling
import M65Tool.Source.SupercleanCounts
import M65Tool.Guarantees.EmptyDirectories
import M65Tool.Guarantees.UntrackedFiles
import M65Tool.Lib.Ownership
import M65Tool.Source.HeapBlocks
import M65Tool.Guarantees.MapRefusals
import M65Tool.Guarantees.MapRefines
import M65Tool.Guarantees.WordReport
import M65Tool.Guarantees.MemtblLifecycle
import M65Tool.Guarantees.StrbufLifecycle
import M65Tool.Guarantees.CleanupTwice
import M65Tool.Guarantees.MakefileCollected

import VamosBuffers.Schemes.Checked
import VamosBuffers.Schemes.Prog
import VamosBuffers.Schemes.RelyGuarantee
import VamosBuffers.Schemes.RingIndex
import VamosBuffers.Schemes.Summary
import VamosBuffers.Schemes.Agree
import VamosBuffers.Schemes.RoundRobin
import VamosBuffers.Schemes.Operations
import VamosBuffers.Schemes.Links
import VamosBuffers.Schemes.Blocks
import VamosBuffers.Core.List
import VamosBuffers.Core.ListEmbedded
import VamosBuffers.Core.SpscRingbuf
import VamosBuffers.Core.RingbufRoles
import VamosBuffers.Core.RingbufRuns
import VamosBuffers.Core.RingbufAnswers
import VamosBuffers.Cpp.RingBuffer
import VamosBuffers.Cpp.Attach
import VamosBuffers.Core.ParQueue
import VamosBuffers.Core.Vector
import VamosBuffers.Core.VectorRuns
import VamosBuffers.Core.QueueRoles
import VamosBuffers.Core.QueueRuns
import VamosBuffers.Core.Event
import VamosBuffers.Core.Monitor
import VamosBuffers.Core.MonitorRuns
import VamosBuffers.Shmbuf.BufferSub
import VamosBuffers.Shmbuf.BufferAux
import VamosBuffers.Shmbuf.DropLock
import VamosBuffers.Shmbuf.DroppedRanges
import VamosBuffers.Shmbuf.AuxStrings
import VamosBuffers.Shmbuf.AuxRuns
import VamosBuffers.Shmbuf.AuxPair
import VamosBuffers.Shmbuf.AuxPinned
import VamosBuffers.Core.Arbiter
import VamosBuffers.Core.QueuePeek
import VamosBuffers.Core.QueueSpsc
import VamosBuffers.Core.QueueSpscRuns
import VamosBuffers.Core.QueueSpscPeek
import VamosBuffers.Core.QueueContent
import VamosBuffers.Core.PeekThreads
import VamosBuffers.Core.ArbiterRoles
import VamosBuffers.Core.ArbiterBooks
import VamosBuffers.Core.ArbiterManager
import VamosBuffers.Core.ArbiterSides
import VamosBuffers.Core.ArbiterRuns
import VamosBuffers.Core.DropRuns
import VamosBuffers.Core.ManagerSteps
import VamosBuffers.Core.ManagerSpace
import VamosBuffers.Core.ManagerRuns
import VamosBuffers.Core.ArbiterDrops
import VamosBuffers.Core.ArbiterAsserts
import VamosBuffers.Core.Source
import VamosBuffers.Core.SourceText
import VamosBuffers.Core.EventCache
import VamosBuffers.Streams.Streams
import VamosBuffers.Shmbuf.Sizes
import VamosBuffers.Shmbuf.BufferControl
import VamosBuffers.Shmbuf.PartialPush
import VamosBuffers.Shmbuf.Register
import VamosBuffers.Shmbuf.KeyPath
import VamosBuffers.Core.Shamon
import VamosBuffers.Core.ProcessEvents
import VamosBuffers.Core.ShamonStreams
import VamosBuffers.Core.ShamonDiscovery
import VamosBuffers.Core.ShamonDestroy
import VamosBuffers.Core.ManagerItems
import VamosBuffers.Core.ManagerReports
import VamosBuffers.Core.ReportSteps
import VamosBuffers.Core.ReportRuns
import VamosBuffers.Core.AwaitedStrings
import VamosBuffers.Shmbuf.Handshake
import VamosBuffers.Schemes.Family
import VamosBuffers.Core.ShamonReady
import VamosBuffers.Schemes.Files
import VamosBuffers.Shmbuf.Publish
import VamosBuffers.Shmbuf.Connect
import VamosBuffers.Schemes.Turns
import VamosBuffers.Core.HoleHandling
import VamosBuffers.Core.HoleRuns
import VamosBuffers.Core.HoleEnd

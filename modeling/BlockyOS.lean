import BlockyOS.Boot.Bitmap
import BlockyOS.Boot.GifBlocks
import BlockyOS.Boot.GifEncoding
import BlockyOS.Boot.MemoryMapSort
import BlockyOS.Foundation.Roundings
import BlockyOS.Frat.BlockLayers
import BlockyOS.Frat.BootSession
import BlockyOS.Frat.Extensions
import BlockyOS.Frat.PathDigests
import BlockyOS.Frat.Requests
import BlockyOS.HostTool.Attributes
import BlockyOS.HostTool.BlockTransfers
import BlockyOS.HostTool.ByteAccess
import BlockyOS.HostTool.DiskLayout
import BlockyOS.HostTool.ParentPath
import BlockyOS.HostTool.PatternRuns
import BlockyOS.HostTool.Persistence
import BlockyOS.HostTool.Reading
import BlockyOS.HostTool.Refusals
import BlockyOS.HostTool.Removal
import BlockyOS.HostTool.ShortWrites
import BlockyOS.HostTool.StringReplace
import BlockyOS.HostTool.Tokenizer
import BlockyOS.HostTool.Traversal
import BlockyOS.HostTool.WideEntries
import BlockyOS.HostTool.WrittenCommands
import BlockyOS.Kernel.ACPISearch
import BlockyOS.Kernel.AHCITransfers
import BlockyOS.Kernel.AlignmentMacros
import BlockyOS.Kernel.CandidatePool
import BlockyOS.Kernel.DescriptorFusion
import BlockyOS.Kernel.FileStamps
import BlockyOS.Kernel.InterruptGates
import BlockyOS.Kernel.InterruptVectors
import BlockyOS.Kernel.MADTSelection
import BlockyOS.Kernel.NVMeCompletions
import BlockyOS.Kernel.OwnerLookup
import BlockyOS.Kernel.PCIeEnumeration
import BlockyOS.Kernel.PageMapping
import BlockyOS.Kernel.PoolCarving
import BlockyOS.Kernel.Reallocation
import BlockyOS.Kernel.SSERegisters
import BlockyOS.Kernel.SystemDescriptors
import BlockyOS.Kernel.TimerEvents
import BlockyOS.Kernel.ZeroedSizes
import BlockyOS.Libcrt.DecimalParsing
import BlockyOS.Libcrt.ElementSearch
import BlockyOS.Libcrt.IntegerMath
import BlockyOS.Libcrt.IntegerText
import BlockyOS.Libcrt.MemoryRoutines
import BlockyOS.Libcrt.MersenneTwister
import BlockyOS.Libcrt.RandomRanges
import BlockyOS.Libcrt.StringCompare
import BlockyOS.Libcrt.WichmannHill
import BlockyOS.Loader.DependencySearch
import BlockyOS.Loader.Exports
import BlockyOS.Loader.Linking
import BlockyOS.Loader.Placement
import BlockyOS.Loader.TableScans
import BlockyOS.Video.Blitting
import BlockyOS.Video.Printing

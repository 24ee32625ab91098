import NaiveGfs.Words.LittleEndian
import NaiveGfs.Words.CString
import NaiveGfs.Words.PrefixMatcher
import NaiveGfs.Words.Numeral
import NaiveGfs.Words.Crc
import NaiveGfs.Storage.BlockStore
import NaiveGfs.Storage.FileStore
import NaiveGfs.Tables.LinkTable
import NaiveGfs.Tables.Ledger
import NaiveGfs.Channels.TwoParty
import NaiveGfs.Programs.Contract
import NaiveGfs.Programs.Returns
import NaiveGfs.Programs.Trace
import NaiveGfs.Sd.Sector
import NaiveGfs.Sd.Emmc
import NaiveGfs.Sd.Block
import NaiveGfs.Sd.Monitor
import NaiveGfs.Sd.Card
import NaiveGfs.Sd.Reading
import NaiveGfs.Sd.Writing
import NaiveGfs.Sd.Store
import NaiveGfs.Sd.Prompt
import NaiveGfs.Sd.Init
import NaiveGfs.Fat32.Volume
import NaiveGfs.Fat32.Alloc
import NaiveGfs.Fat32.Directory
import NaiveGfs.Fat32.ClusterIo
import NaiveGfs.Fat32.ChainWalks
import NaiveGfs.Fat32.Effects
import NaiveGfs.Fat32.FileChain
import NaiveGfs.Fat32.Coherence
import NaiveGfs.Fat32.SlotOrder
import NaiveGfs.Fat32.RootChain
import NaiveGfs.Fat32.Findable
import NaiveGfs.Fat32.FileMap
import NaiveGfs.Fat32.Files
import NaiveGfs.Fat32.DirectoryEntries
import NaiveGfs.Fat32.PowerCut
import NaiveGfs.Fat32.Init
import NaiveGfs.Fat32.PartitionTable
import NaiveGfs.Fat32.Boot
import NaiveGfs.Fat32.LoadFat
import NaiveGfs.Fat32.Acceptance
import NaiveGfs.Fat32.Mirrors
import NaiveGfs.Fat32.OutOfSpace
import NaiveGfs.Fat32.FullRoot
import NaiveGfs.Fat32.FileSize
import NaiveGfs.Fat32.DirectoryCut
import NaiveGfs.Fat32.Lookup
import NaiveGfs.Fat32.Listing
import NaiveGfs.Fat32.FlakyCard
import NaiveGfs.Fat32.Geometry
import NaiveGfs.Fat32.PartitionBounds
import NaiveGfs.Fat32.FlakyCreation
import NaiveGfs.Fat32.FailedIo
import NaiveGfs.Dfs.InitConfig
import NaiveGfs.Dfs.ConfigSector
import NaiveGfs.Fat32.TwoDrivers
import NaiveGfs.Fat32.OverSd
import NaiveGfs.Dfs.NameFraming
import NaiveGfs.Dfs.Protocol
import NaiveGfs.Dfs.Phases
import NaiveGfs.Dfs.Rounds
import NaiveGfs.Dfs.IdExchange
import NaiveGfs.Dfs.Lockstep
import NaiveGfs.Dfs.Fleet
import NaiveGfs.Dfs.Permanent
import NaiveGfs.Dfs.Identity
import NaiveGfs.Dfs.NameSharing
import NaiveGfs.Dfs.IdRange
import NaiveGfs.Dfs.WaitLoops
import NaiveGfs.Mac.GetPiOutput
import NaiveGfs.Mac.ExitString
import NaiveGfs.Mac.DoneScan
import NaiveGfs.Mac.Rotation
import NaiveGfs.Mac.BootDrain
import NaiveGfs.Mac.Crc32
import NaiveGfs.Mac.Upload
import NaiveGfs.Print.EmitVal
import NaiveGfs.Print.Vprintk
import NaiveGfs.Print.ReadBack
import NaiveGfs.Print.Snprintk

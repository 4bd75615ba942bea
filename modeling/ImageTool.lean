import ImageTool.Lib.Word
import ImageTool.Lib.Call
import ImageTool.Lib.Bytes
import ImageTool.Lib.CString
import ImageTool.Image.Volume
import ImageTool.Image.Memmove
import ImageTool.Image.MemmoveWrap
import ImageTool.Image.Access
import ImageTool.Image.BlocksizeAdapter
import ImageTool.Lib.OsFile
import ImageTool.Util.Bitmap
import ImageTool.Util.Retry
import ImageTool.Util.Reflect
import ImageTool.Image.FileVolume
import ImageTool.Image.AdapterTruncate
import ImageTool.Image.Truncation
import ImageTool.Image.Transfer
import ImageTool.Mbr.Disk
import ImageTool.Mbr.Resize
import ImageTool.Mbr.Invariant
import ImageTool.Mbr.Relocate
import ImageTool.Mbr.Isolation
import ImageTool.Mbr.Flags
import ImageTool.Mbr.Header
import ImageTool.Mbr.Property
import ImageTool.Mbr.SinglePart
import ImageTool.Mbr.Fill
import ImageTool.Fstree.Files
import ImageTool.Lib.Extents
import ImageTool.Lib.FirstFull
import ImageTool.Fstree.Layout
import ImageTool.Fstree.Steps
import ImageTool.Fstree.Invariant
import ImageTool.Imgtool.DepTracker
import ImageTool.Imgtool.CommitOrder
import ImageTool.Imgtool.Registrations
import ImageTool.Imgtool.CommitLog
import ImageTool.Imgtool.FileSource
import ImageTool.Imgtool.DirectoryTree
import ImageTool.Imgtool.DirectorySource
import ImageTool.Imgtool.DirectoryRuns
import ImageTool.Imgtool.SourceProducers
import ImageTool.Imgtool.Nesting
import ImageTool.Imgtool.Composition
import ImageTool.Fstree.CanonicalizePath
import ImageTool.Fstree.PathComponents
import ImageTool.Fstree.CanonicalizeInPlace
import ImageTool.Fstree.Tree
import ImageTool.Fstree.TreeInvariant
import ImageTool.Fstree.TreeSort
import ImageTool.Fstree.Lookup
import ImageTool.Fstree.NodePaths
import ImageTool.Fstree.InodeTable
import ImageTool.Fstree.ManyNodes
import ImageTool.Lib.PointerJumping
import ImageTool.Fstree.HardLinks
import ImageTool.Lib.Chain
import ImageTool.Fstree.SortList
import ImageTool.Fstree.SortLinks
import ImageTool.Fstree.RelistLinks
import ImageTool.Imgtool.FileSink
import ImageTool.Fstream.Istream
import ImageTool.Fstream.Xfrm
import ImageTool.Fstream.IstreamXfrm
import ImageTool.Fstream.FileIstream
import ImageTool.Fstream.OstreamXfrm
import ImageTool.Fstream.FileOstream
import ImageTool.Fstream.GetLine
import ImageTool.Fstream.Lines
import ImageTool.Fstream.Operations
import ImageTool.Imgtool.TarIstream
import ImageTool.Imgtool.SparseMember
import ImageTool.Imgtool.ListingEntry
import ImageTool.Imgtool.ListingLine
import ImageTool.Imgtool.Listing
import ImageTool.Lib.LastAssigned
import ImageTool.Fstree.SparseSet
import ImageTool.Fstree.Content
import ImageTool.Fstree.MoveContent
import ImageTool.Fstree.StoredBytes
import ImageTool.Fstree.GapWrap
import ImageTool.Fstree.AtBack
import ImageTool.Fstree.AppendContent
import ImageTool.Fstree.AppendLaw
import ImageTool.Fstree.TruncateLaw
import ImageTool.Fstree.WriteContent
import ImageTool.Fstree.WriteLoop
import ImageTool.Fstree.AppendBlocks
import ImageTool.Fstree.WriteLaw
import ImageTool.Fstree.FullVolume
import ImageTool.Fstree.FsVolume
import ImageTool.Fat.Parameters
import ImageTool.Fat.Window
import ImageTool.Lib.LittleEndian
import ImageTool.Fat.Shortname
import ImageTool.Fat.Dirent
import ImageTool.Fat.ShortnameList
import ImageTool.Fat.Vfat
import ImageTool.Fat.Timestamp
import ImageTool.Lib.Numeral
import ImageTool.Tar.Number
import ImageTool.Tar.NumberFormat
import ImageTool.Tar.SparseMapNew
import ImageTool.Tar.SparseMapOld
import ImageTool.Tar.PaxHeader
import ImageTool.Tar.XattrEncoding
import ImageTool.Tar.PaxBounds
import ImageTool.Tar.PaxRecords
import ImageTool.Tar.PaxFields
import ImageTool.Tar.XattrInPlace
import ImageTool.Tar.PaxDecode
import ImageTool.Image.VolumeOstream
import ImageTool.Image.StreamRuns
import ImageTool.Image.LastWrite
import ImageTool.Image.SizeContract
import ImageTool.Image.FileVolumeOrder
import ImageTool.Fstree.FsVolumeOrder
import ImageTool.Mbr.PartitionOrder
import ImageTool.Imgtool.VolumeOrder
import ImageTool.Imgtool.SparseContents
import ImageTool.Lib.Agreement
import ImageTool.Tar.ReadHeader
import ImageTool.Imgtool.TarSource
import ImageTool.Tar.HeaderAgreement
import ImageTool.Tar.HeaderEnds
import ImageTool.Cpio.Header
import ImageTool.Cpio.Format
import ImageTool.Cpio.Entries
import ImageTool.Cpio.LinkCounts
import ImageTool.Cpio.ArchiveLength
import ImageTool.Imgtool.MemberLedger
import ImageTool.Imgtool.TarRecords
import ImageTool.Imgtool.TarRuns
import ImageTool.Gcfg.CodePoint
import ImageTool.Gcfg.DecNum
import ImageTool.Gcfg.ParseNumber
import ImageTool.Gcfg.ValidUtf8
import ImageTool.Gcfg.StringGrammar
import ImageTool.Gcfg.ParseString
import ImageTool.Gcfg.LongEscapes
import ImageTool.Gcfg.ParseArgs
import ImageTool.Gcfg.ParseFile
import ImageTool.Gcfg.ParseRule
import ImageTool.Gcfg.ObjectLifetimes
import ImageTool.Gcfg.ConfigItems
import ImageTool.Gcfg.ConfigGrammar
import ImageTool.Lib.Interleaved
import ImageTool.Fstree.Interleave
import ImageTool.Cpio.Newc
import ImageTool.Cpio.Image
import ImageTool.Cpio.ArchiveMembers

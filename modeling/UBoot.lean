import UBoot.Env.Lookup
import UBoot.Env.SfcNandRuns
import UBoot.Memory.Bookkeeping
import UBoot.Net.DefragCorrect
import UBoot.Net.TftpUpload
import UBoot.Shell.CommandList
import UBoot.Fit.HashedNodes
import UBoot.Nor.ReadExact
import UBoot.Sparse.ExpandImage
import UBoot.Env.FwEnv
import UBoot.Video.Undistorted
import UBoot.Net.NfsSafe
import UBoot.Env.ExportSize
import UBoot.Env.Match
import UBoot.Env.ImportBounds
import UBoot.Boot.LoadOs
import UBoot.Boot.Gunzip
import UBoot.Serial.SRecordRoundTrip
import UBoot.Env.AttrLookup
import UBoot.Net.BootpVendor
import UBoot.Boot.PxeSafe
import UBoot.Ext4.ReadBack
import UBoot.Memory.AllocTop
import UBoot.Rsa.MontgomeryMul
import UBoot.Fit.TrustedKeys
import UBoot.Fdt.RegionsExact
import UBoot.Disk.GptLayout
import UBoot.Disk.PartitionInfo
import UBoot.Dfu.WriteStream
import UBoot.Dfu.ReadStream
import UBoot.Net.UdpReceive
import UBoot.Net.NfsDownload
import UBoot.Clock.PllComplete
import UBoot.Clock.X1830RoundTrip
import UBoot.Shell.MacrosSafe
import UBoot.Shell.LineEditorRefines
import UBoot.Nand.EraseOpts
import UBoot.Mtd.PartParseSafe
import UBoot.Mtd.CurrentPartStable
import UBoot.Mtd.SpreadSound
import UBoot.Serial.Circbuf
import UBoot.Nand.NvMapArea
import UBoot.Clock.SysDiv
import UBoot.Nor.PageWrite
import UBoot.Ext4.ByteRange
import UBoot.Memory.RamSize
import UBoot.Boot.Bootstage

import Simpad.Jffs2.FraglistMap
import Simpad.Jffs2.DirLinks
import Simpad.Jffs2.BuildLinks
import Simpad.Jffs2.CommitWrite
import Simpad.Jffs2.FilePosix
import Simpad.Drivers.UsbCharStream
import Simpad.Drivers.UsbReset
import Simpad.Drivers.UsbRecv
import Simpad.Drivers.UsbCharWrite
import Simpad.Drivers.Poll
import Simpad.Drivers.UsbEthRecv
import Simpad.Drivers.UsbEthXmit
import Simpad.Drivers.Apm
import Simpad.Drivers.Switches
import Simpad.Drivers.TouchScreen
import Simpad.Drivers.TouchRing
import Simpad.Drivers.PcmciaMecr
import Simpad.Drivers.PcmciaDetect
import Simpad.Drivers.Ucb1x00
import Simpad.Drivers.DmaSpin
import Simpad.Drivers.DmaRequest
import Simpad.Tools.Serload
import Simpad.Tools.ValueFromString
import Simpad.Mtd.Partition
import Simpad.Irda.Bounds
import Simpad.Irda.FirReceive
import Simpad.Irda.Speed
import Simpad.Kernel.BuddySound
import Simpad.Kernel.Cpufreq
import Simpad.Kernel.Vsscanf
import Simpad.Kernel.TimerWheel
import Simpad.Jffs2.ReserveRuns
import Simpad.Jffs2.Locking
import Simpad.Jffs2.WriteNode
import Simpad.Jffs2.ScanBuffer
import Simpad.Jffs2.ComprBounds
import Simpad.Kernel.ProcRead
import Simpad.Jffs2.Readdir
import Simpad.Jffs2.RubinRoundTrip
import Simpad.Kernel.ProcWrite
import Simpad.Drivers.PcmciaIrq
import Simpad.Drivers.RsrcMgr
import Simpad.Drivers.AudioAttach
import Simpad.Drivers.RtcTime
import Simpad.Jffs2.GcView
import Simpad.Tools.NetBlocks
import Simpad.Drivers.Mq200Screen
import Simpad.Tools.Xcalibrate
import Simpad.Mtd.BlockErrors
import Simpad.Mtd.PartitionTable
import Simpad.Mtd.CfiChip
import Simpad.Mtd.CfiErase
import Simpad.Mtd.CfiWrite
import Simpad.Mtd.Redboot
import Simpad.Mtd.CmdlinePointers

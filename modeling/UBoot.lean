import UBoot.Lib.Memory
import UBoot.Lib.Tables
import UBoot.Crc32
import UBoot.Env.Data
import UBoot.Env.Edit
import UBoot.Env.Setenv
import UBoot.Env.FiniteMap
import UBoot.Lib.Run
import UBoot.Env.Eeprom
import UBoot.Env.FwSetenv
import UBoot.Env.Redundant
import UBoot.Env.FwEnv
import UBoot.Env.Nand
import UBoot.Env.PowerFail
import UBoot.Lib.Intervals
import UBoot.Lib.Align
import UBoot.Lmb.Region
import UBoot.Lmb.AddRegion
import UBoot.Lmb.Alloc
import UBoot.Lmb.Calls
import UBoot.Lmb.SingleCalls
import UBoot.Lmb.Joining
import UBoot.Lmb.Search
import UBoot.Lmb.Placement
import UBoot.Cli.ParseLine
import UBoot.Cli.RunCommand
import UBoot.Cli.History
import UBoot.Cli.Macros
import UBoot.Cli.ReadLine
import UBoot.Cli.Complete
import UBoot.Cli.CreadLine
import UBoot.Cli.Editor
import UBoot.Console.Stdio
import UBoot.Load.SRecord
import UBoot.Load.Serial
import UBoot.Load.Copies
import UBoot.Load.Kermit
import UBoot.Load.Transfer
import UBoot.Lib.AddressSpace
import UBoot.Lib.Links
import UBoot.Lib.Logged
import UBoot.Lib.Walk
import UBoot.Lib.Occurrence
import UBoot.Env.Hwconfig
import UBoot.Env.HwconfigSearch
import UBoot.Net.Tftp
import UBoot.Net.TftpTransfer
import UBoot.Net.Net
import UBoot.Lib.OnesComplement
import UBoot.Net.Checksum
import UBoot.Net.Payload
import UBoot.Net.Echo
import UBoot.Net.Cdp
import UBoot.Net.Dns
import UBoot.Net.Arp
import UBoot.Net.Defrag
import UBoot.Net.HoleList
import UBoot.Net.Datagram
import UBoot.Net.Reassembly
import UBoot.Net.FragmentWrites
import UBoot.Net.Bootp
import UBoot.Net.Dhcp
import UBoot.Net.Vendor
import UBoot.Net.Options
import UBoot.Net.VendorArea
import UBoot.Net.Nfs
import UBoot.Net.NfsCopies
import UBoot.Net.NfsTransfer
import UBoot.Fs.Ext2
import UBoot.Fs.BlockMap
import UBoot.Fs.Devread
import UBoot.Fs.ReadFile
import UBoot.Fs.ReadErrors
import UBoot.Fs.IterateDir
import UBoot.Fs.ReadInode
import UBoot.Fs.Fat
import UBoot.Fs.FatTable
import UBoot.Fs.FatContents
import UBoot.Fs.FatGeometry
import UBoot.Fs.Vfat
import UBoot.Fs.FatDir
import UBoot.Boot.Boota
import UBoot.Boot.Bootchain
import UBoot.Boot.UnitScan
import UBoot.Boot.Bootu
import UBoot.Boot.Eltorito
import UBoot.Disk.PartDos
import UBoot.Disk.Numbering
import UBoot.Disk.Recursion
import UBoot.Disk.PartAmiga
import UBoot.Disk.AmigaList
import UBoot.Disk.AmigaRange
import UBoot.Disk.PartEfi
import UBoot.Menu.Menu
import UBoot.Menu.Bios
import UBoot.Menu.Navigation
import UBoot.Menu.RoundTrip
import UBoot.Boot.Bootm
import UBoot.Flash.Write
import UBoot.Flash.Protection
import UBoot.Image.Mkimage
import UBoot.Image.Multi
import UBoot.Pci.Auto
import UBoot.Pci.BusNumbers
import UBoot.Pci.Allocate
import UBoot.Pci.Windows
import UBoot.Pci.Configured
import UBoot.Lib.Agree
import UBoot.Lib.Cells
import UBoot.Usb.Enumerate
import UBoot.Usb.Table
import UBoot.Lib.Ring
import UBoot.Circbuf
import UBoot.Env.GetenvR
import UBoot.Boot.MemmoveWd
import UBoot.Pci.Translate
import UBoot.Env.NandBlocks
import UBoot.Env.EepromChip
import UBoot.Lib.Fallible
import UBoot.Env.FwFlash
import UBoot.Menu.StringEdit
import UBoot.Lib.Words
import UBoot.Menu.Help
import UBoot.Menu.BootSelect
import UBoot.Lib.ByteOrder
import UBoot.Crc32Builds
import UBoot.Lib.Pieces
import UBoot.Usb.Ehci
import UBoot.Usb.Storage
import UBoot.Disk.SataDwc
import UBoot.Lib.Printing
import UBoot.Flash.Mtdparts
import UBoot.Lib.Terminal
import UBoot.Lib.Windows
import UBoot.Lib.Retry
import UBoot.Console.Video
import UBoot.Flash.Ranges
import UBoot.Flash.Cfi
import UBoot.Disk.SamIde
import UBoot.Disk.Atapi
import UBoot.Flash.FindSector
import UBoot.Flash.NandEcc
import UBoot.Flash.NandPage
import UBoot.Lib.Spans
import UBoot.Rtc.Date
import UBoot.Cli.Itest
import UBoot.Lib.Blocks
import UBoot.Cpu.Tlb
import UBoot.Cpu.ProgramTlb
import UBoot.I2c.Transfer
import UBoot.Usb.Kbd
import UBoot.Usb.Config
import UBoot.Usb.EhciLength
import UBoot.Flash.NandRead

import UBoot.Mmc.Coherence
import UBoot.Mmc.Erase
import UBoot.Mmc.Status
import UBoot.Mmc.Refusal
import UBoot.Mmc.Host
import UBoot.Flash.SparseReads
import UBoot.Flash.SparseExpansion
import UBoot.Flash.Erase
import UBoot.Flash.Ranges
import UBoot.Nand.Persistence
import UBoot.Nand.Refinement
import UBoot.Nand.Padding
import UBoot.Nand.Range
import UBoot.Nand.Bookkeeping
import UBoot.Nand.Oob
import UBoot.Nand.Ecc
import UBoot.Nand.Layout
import UBoot.Nand.Chains
import UBoot.Disk.Lookup
import UBoot.Disk.Backup
import UBoot.Disk.Placement
import UBoot.Disk.Names
import UBoot.Secure.Acceptance
import UBoot.Secure.Agreement
import UBoot.Loader.Safety
import UBoot.Loader.Download
import UBoot.Loader.Upload
import UBoot.Loader.Framing
import UBoot.Loader.Fill
import UBoot.Loader.Chunked
import UBoot.Usb.Flow
import UBoot.Usb.Receive
import UBoot.Board.Tl420
import UBoot.Board.PartitionString
import UBoot.Board.DdrOnFlash
import UBoot.Video.Mipi
import UBoot.Board.TrainingWindow
import UBoot.Board.GateTraining
import UBoot.Disk.DosWalk
import UBoot.Disk.DosAgreement
import UBoot.Usb.DoubleBuffer
import UBoot.Usb.Fastboot
import UBoot.Usb.Downloaded
import UBoot.Loader.Transport
import UBoot.Board.DdrSave
import UBoot.Board.DdrCrash
import UBoot.Board.Pins
import UBoot.Board.Delay
import UBoot.Board.Adc
import UBoot.Board.Heap
import UBoot.Board.Refresh
import UBoot.Text.Callers
import UBoot.Board.MemoryTest
import UBoot.Disk.Burst
import UBoot.Usb.Enumeration
import UBoot.Usb.Emmc

import Picorv32Soc.Bits
import Picorv32Soc.HexText
import Picorv32Soc.Clocked
import Picorv32Soc.Cyclic
import Picorv32Soc.Steps
import Picorv32Soc.Axis
import Picorv32Soc.Ram
import Picorv32Soc.RamBytes
import Picorv32Soc.RamService
import Picorv32Soc.Dmac
import Picorv32Soc.Heap
import Picorv32Soc.Phase
import Picorv32Soc.Proofs.PhaseStep
import Picorv32Soc.Episodes
import Picorv32Soc.RxRing
import Picorv32Soc.RingQueue
import Picorv32Soc.Grant
import Picorv32Soc.Reception
import Picorv32Soc.RxVerdict
import Picorv32Soc.RxMemory
import Picorv32Soc.HeapService
import Picorv32Soc.Uart
import Picorv32Soc.Fifo
import Picorv32Soc.Transmit
import Picorv32Soc.Output
import Picorv32Soc.Pqueue
import Picorv32Soc.QueueSteps
import Picorv32Soc.Driver
import Picorv32Soc.RxPath
import Picorv32Soc.Proofs.RxPathStep
import Picorv32Soc.Delivery
import Picorv32Soc.RxPbuf
import Picorv32Soc.Top
import Picorv32Soc.PortModes
import Picorv32Soc.CpuMemory
import Picorv32Soc.Registers
import Picorv32Soc.Makehex
import Picorv32Soc.FirmwareImage
import Picorv32Soc.Numeral
import Picorv32Soc.Printnum
import Picorv32Soc.Vprintfmt
import Picorv32Soc.Format
import Picorv32Soc.Cells
import Picorv32Soc.Sprintf
import Picorv32Soc.ZeroByte
import Picorv32Soc.Strings
import Picorv32Soc.Strcpy
import Picorv32Soc.Restoring
import Picorv32Soc.Requests
import Picorv32Soc.Cpu.Rv32m
import Picorv32Soc.Cpu.PcpiDiv
import Picorv32Soc.Cpu.Multiply
import Picorv32Soc.Cpu.PcpiMul
import Picorv32Soc.ShiftRegister
import Picorv32Soc.Crc
import Picorv32Soc.Eth.Lfsr
import Picorv32Soc.Eth.Fcs
import Picorv32Soc.Eth.GmiiTx
import Picorv32Soc.Eth.GmiiRx
import Picorv32Soc.Eth.Link
import Picorv32Soc.Gray
import Picorv32Soc.Rounds
import Picorv32Soc.Eth.AsyncFifo
import Picorv32Soc.Eth.FifoInv
import Picorv32Soc.Eth.FifoRun
import Picorv32Soc.Skid
import Picorv32Soc.Eth.Adapter
import Picorv32Soc.Eth.RxStream

import Gyarados.Drivers.Backspace
import Gyarados.Drivers.Completion
import Gyarados.Drivers.Cursors
import Gyarados.Drivers.Displayed
import Gyarados.Drivers.Dma
import Gyarados.Drivers.LineBuffers
import Gyarados.Drivers.LineDiscipline
import Gyarados.Drivers.Mouse
import Gyarados.Drivers.Output
import Gyarados.Drivers.Resume
import Gyarados.Drivers.RtcRegisters
import Gyarados.Drivers.RtcTicks
import Gyarados.Drivers.ScanCodes
import Gyarados.Drivers.Screens
import Gyarados.Drivers.SoundCard
import Gyarados.Drivers.Timer
import Gyarados.Fs.BlockTable
import Gyarados.Fs.EndOfFile
import Gyarados.Fs.FailedRead
import Gyarados.Fs.NameField
import Gyarados.Fs.SequentialRead
import Gyarados.Kernel.Arguments
import Gyarados.Kernel.ExitStatus
import Gyarados.Kernel.FileCalls
import Gyarados.Kernel.IntFlag
import Gyarados.Kernel.Interrupts
import Gyarados.Kernel.Irq
import Gyarados.Kernel.Listing
import Gyarados.Kernel.ProgramFile
import Gyarados.Kernel.ReadBound
import Gyarados.Kernel.Restart
import Gyarados.Kernel.Roots
import Gyarados.Kernel.Sbrk
import Gyarados.Kernel.SyscallIrq
import Gyarados.Kernel.User
import Gyarados.Lib.Printf
import Gyarados.Lib.Rand
import Gyarados.Lib.StringOps
import Gyarados.Lib.TextConsole
import Gyarados.Mm.Isolation

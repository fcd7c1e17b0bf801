import KiNBOL.Mm.PmmRun
import KiNBOL.Mm.UserRange
import KiNBOL.Mm.Teardown
import KiNBOL.Kernel.Munmap
import KiNBOL.Loader.ElfConfined
import KiNBOL.Mm.HeapGivesBack
import KiNBOL.Kernel.ProcessIsolation
import KiNBOL.Kernel.SysMmap
import KiNBOL.Kernel.FrameRun
import KiNBOL.Mm.PageMapRun
import KiNBOL.Kernel.SchedSound
import KiNBOL.Kernel.SwitchSound
import KiNBOL.Fs.Creation
import KiNBOL.Graphics.GpipeSound
import KiNBOL.Fs.Lfn
import KiNBOL.Kernel.SmapDiscipline
import KiNBOL.Fs.Removal
import KiNBOL.Fs.EmptyCheck
import KiNBOL.Fs.LfnRule
import KiNBOL.Mm.PmmSearch
import KiNBOL.Kernel.Mprotect
import KiNBOL.Loader.ElfWx
import KiNBOL.Loader.ElfContents
import KiNBOL.Mm.VirtToPhys
import KiNBOL.Mm.VmmInitSound
import KiNBOL.Kernel.Bypass
import KiNBOL.Kernel.SleepSound
import KiNBOL.Kernel.Cursors
import KiNBOL.Kernel.ProgramHeaders
import KiNBOL.Fs.RandomDevice
import KiNBOL.Fs.Ramdisk
import KiNBOL.Fs.Ram0
import KiNBOL.Drivers.Ahci
import KiNBOL.Kernel.Dmesg
import KiNBOL.Drivers.KbRing
import KiNBOL.Drivers.Keyboard
import KiNBOL.Graphics.GpipeBmp
import KiNBOL.Graphics.GlyphBounds
import KiNBOL.Kernel.Rand
import KiNBOL.Kernel.Ioapic
import KiNBOL.Graphics.Terminal
import KiNBOL.Shell.CalcGrammar
import KiNBOL.Fs.SlotSearch
import KiNBOL.Fs.Store
import KiNBOL.Fs.WriteGap
import KiNBOL.Fs.LongNames
import KiNBOL.Fs.FileRead
import KiNBOL.Kernel.OpenFiles
import KiNBOL.Kernel.Interrupt
import KiNBOL.Kernel.Spin

import KernelStuff.AssocArrayGc.Patch
import KernelStuff.AssocArrayGc.Placement
import KernelStuff.Crashstash.Report
import KernelStuff.Crashstash.RoundTrip
import KernelStuff.Crashstash.Openers
import KernelStuff.AssocArrayGc.Compaction
import KernelStuff.Editbuildid.Elf
import KernelStuff.Library.Effects
import KernelStuff.Editbuildid.Hex
import KernelStuff.Editbuildid.Notes
import KernelStuff.Editbuildid.Program
import KernelStuff.Editbuildid.Search
import KernelStuff.Editbuildid.NoteFormat
import KernelStuff.Editbuildid.Status
import KernelStuff.Editbuildid.Declared
import KernelStuff.Editbuildid.RoundTrip
import KernelStuff.Negdentcreate.Progress
import KernelStuff.AssocArrayGc.Constructor
import KernelStuff.AssocArrayGc.Rebuilding
import KernelStuff.Editvmcoreinfo.Program
import KernelStuff.Editvmcoreinfo.Loading
import KernelStuff.Editvmcoreinfo.Editing
import KernelStuff.Editvmcoreinfo.Failure
import KernelStuff.Editvmcoreinfo.CleanNotes
import KernelStuff.Editvmcoreinfo.Edited
import KernelStuff.Editvmcoreinfo.LastWins
import KernelStuff.Findvmcoreinfo.Blocks
import KernelStuff.Phys2virt.LoadSegments
import KernelStuff.Dumpphys.Program
import KernelStuff.Dumpphys.Pages
import KernelStuff.Dumpphys.WholeDump
import KernelStuff.Dumpphys.Search
import KernelStuff.Negdentcreate.Names
import KernelStuff.Editvmcoreinfo.Scan
import KernelStuff.AssocArrayGc.Steps
import KernelStuff.AssocArrayGc.LiveTree
import KernelStuff.AssocArrayGc.Retries
import KernelStuff.Editbuildid.Bounds
import KernelStuff.Editbuildid.Encodings
import KernelStuff.Editbuildid.FileBounds
import KernelStuff.Editvmcoreinfo.NoteParts
import KernelStuff.Editvmcoreinfo.Segments
import KernelStuff.Findvmcoreinfo.Strings
import KernelStuff.Library.Sections
import KernelStuff.Negdentcreate.Directory
import KernelStuff.Negdentcreate.Interrupt
import KernelStuff.Crashstash.Memory
import KernelStuff.Crashstash.Dump
import KernelStuff.Vmcoreinfosize.Script
import KernelStuff.Vmcoreinfosize.Accepted
import KernelStuff.AssocArrayGc.Copies
import KernelStuff.AssocArrayGc.Printing
import KernelStuff.AssocArrayGc.Listing
import KernelStuff.AssocArrayGc.Reproducer
import KernelStuff.Editbuildid.Reliability

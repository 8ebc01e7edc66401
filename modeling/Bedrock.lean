import Bedrock.Block.SectorCache
import Bedrock.Caps.CapPage
import Bedrock.Caps.Lineage
import Bedrock.Fat32.Bpb
import Bedrock.Fat32.DotEntries
import Bedrock.Input.Queue
import Bedrock.Iommu.Reach
import Bedrock.Iommu.Windows
import Bedrock.Mm.FrameCntExact
import Bedrock.Mm.FrameComplete
import Bedrock.Mm.HeapGrow
import Bedrock.Mm.RegionInv
import Bedrock.Mm.RoundTrip
import Bedrock.Mm.Shootdown
import Bedrock.Mm.UserRange
import Bedrock.Ntfs.Listing
import Bedrock.Nvme.Queues
import Bedrock.Partition.Table
import Bedrock.Posix.Cwd
import Bedrock.Posix.Streams
import Bedrock.Posix.WriteFd
import Bedrock.Services.Armed
import Bedrock.Services.Firings
import Bedrock.Task.Bind
import Bedrock.Task.SchedOrphan
import Bedrock.Task.SchedWait
import Bedrock.Task.SchedWeight
import Bedrock.Unispace.Describe
import Bedrock.Unispace.ResolveCache
import Bedrock.Vfs.Drives
import Bedrock.Vfs.Quota
import Bedrock.Vfs.TmpfsTree
import Bedrock.Vfs.Transparent

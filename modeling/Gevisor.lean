import Gevisor.Verified.Channel
import Gevisor.Verified.BufferCoverage
import Gevisor.Verified.EnclaveTrap
import Gevisor.Verified.Bounds
import Gevisor.Verified.Registration
import Gevisor.Verified.Teardown
import Gevisor.Verified.TableOwnership
import Gevisor.Verified.LargePages
import Gevisor.Verified.MemoryTypes
import Gevisor.Verified.Interception
import Gevisor.Verified.MtrrPartition
import Gevisor.Verified.MtrrTypes
import Gevisor.Verified.DriverStates
import Gevisor.Verified.DriverRuntime
import Gevisor.Verified.DescriptorMaps
import Gevisor.Verified.AccessBitmaps
import Gevisor.Verified.ControlRegisters
import Gevisor.Verified.GpuAccess
import Gevisor.Verified.GpuFrames
import Gevisor.Verified.Granularity
import Gevisor.Verified.EpcScan
import Gevisor.Verified.ElfRelocation
import Gevisor.Verified.GuestWalks
import Gevisor.Verified.IoExits
import Gevisor.Verified.StringOperands
import Gevisor.Verified.ObjectAllocation
import Gevisor.Verified.Reallocation
import Gevisor.Verified.ModuleDescriptions
import Gevisor.Verified.ThreadContexts
import Gevisor.Verified.ThreadSpecificData
import Gevisor.Verified.ElfImage
import Gevisor.Verified.SymbolLookup
import Gevisor.Verified.SymbolResolution
import Gevisor.Verified.DebugRingRead
import Gevisor.Verified.Leb128
import Gevisor.Verified.NodeStore
import Gevisor.Verified.LinearSearch
import Gevisor.Unwind.CallFrame
import Gevisor.Unwind.Dwarf
import Gevisor.Unwind.Section
import Gevisor.Verified.CallFrames
import Gevisor.Verified.FrameLookup

import TcgArm.ExecCode
import TcgArm.ExecSplit
import TcgArm.ExecRaise
import TcgArm.SearchData
import TcgArm.HalfOps
import TcgArm.IndirectPass
import TcgArm.ArmLdstRight
import TcgArm.TbFlags
import TcgArm.TbFindPc
import TcgArm.ThumbItBlocks
import TcgArm.HBitmapRight
import TcgArm.JsonRight
import TcgArm.JmpCache
import TcgArm.PageCheck
import TcgArm.MemoryRegions
import TcgArm.NeonLsRegs
import TcgArm.ArmDouble
import TcgArm.NeonLsRight
import TcgArm.CodeBitmapRight
import TcgArm.CallRight
import TcgArm.FpscrWrites
import TcgArm.NeonRuns
import TcgArm.NeonZip
import TcgArm.VfpVector
import TcgArm.ArmShift
import TcgArm.ArmParallel
import TcgArm.RangeList
import TcgArm.UnicodeRight

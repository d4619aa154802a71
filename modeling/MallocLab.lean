import MallocLab.MMWord
import MallocLab.MMLayout
import MallocLab.MMFreeList
import MallocLab.MMArena
import MallocLab.MMCoalesce
import MallocLab.MMPlace
import MallocLab.MMExtend
import MallocLab.MMMalloc
import MallocLab.MMMallocSpec
import MallocLab.MMRealloc
import MallocLab.MMRun
import MallocLab.MMInit
import MallocLab.MMExplicit
import MallocLab.MMSeg
import MallocLab.MMView
import MallocLab.MMVariant
import MallocLab.MMInvariants
import MallocLab.MMCalls
import MallocLab.MMPaths
import MallocLab.MMLaws
import MallocLab.MMFreeOrder
import MallocLab.MMListFamily
import MallocLab.MMMallocResults
import MallocLab.MMStateful
import MallocLab.MMReallocCopy
import MallocLab.MMOwnership
import MallocLab.MMFragmentation
import MallocLab.MMReuse
import MallocLab.MMRefinement

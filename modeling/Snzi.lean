import Snzi.StampedCounter
import Snzi.Tree.Construction
import Snzi.Tree.Indexing
import Snzi.Machine.Thread
import Snzi.Machine.Step
import Snzi.Machine.Shares
import Snzi.Machine.Presence
import Snzi.Machine.ParentCalls
import Snzi.Machine.Completions
import Snzi.Machine.Quiescence
import Snzi.Machine.Indicator
import Snzi.Machine.History
import Snzi.Machine.Linearizability
import Snzi.Machine.WaitFree
import Snzi.Machine.InBounds
import Snzi.Machine.Stacks
import Snzi.Machine.Solo
import Snzi.Machine.DirectPath
import Snzi.Machine.Alternating
import Snzi.Machine.Uncontended
import Snzi.Machine.LeafLoad
import Snzi.Machine.LockFreedom
import Snzi.Machine.TreeShape
import Snzi.Machine.CounterRange

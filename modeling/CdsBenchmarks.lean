import CdsBenchmarks.Concurrent.Program
import CdsBenchmarks.Concurrent.Observe
import CdsBenchmarks.Concurrent.Trace
import CdsBenchmarks.Concurrent.Linearizability
import CdsBenchmarks.Concurrent.Hindsight
import CdsBenchmarks.Concurrent.ReleaseSequence
import CdsBenchmarks.Concurrent.WeakMemory
import CdsBenchmarks.Concurrent.DataRace
import CdsBenchmarks.Concurrent.Handover
import CdsBenchmarks.Concurrent.Simulation
import CdsBenchmarks.Concurrent.SequentialConsistency
import CdsBenchmarks.Concurrent.Counting
import CdsBenchmarks.Concurrent.Chain
import CdsBenchmarks.Seqlock.SeqlockDefs
import CdsBenchmarks.Seqlock.SeqlockExclusion
import CdsBenchmarks.Seqlock.SeqlockRegister
import CdsBenchmarks.Seqlock.SeqlockWeak
import CdsBenchmarks.RwLock.RwLockDefs
import CdsBenchmarks.RwLock.RwLockExclusion
import CdsBenchmarks.RwLock.RwLockScale
import CdsBenchmarks.RwLock.RwLockOrder
import CdsBenchmarks.TicketLock.TicketLockDefs
import CdsBenchmarks.TicketLock.TicketLockQueue
import CdsBenchmarks.TicketLock.TicketLockWeak
import CdsBenchmarks.McsLock.McsLockDefs
import CdsBenchmarks.McsLock.McsLockQueue
import CdsBenchmarks.McsLock.McsLockWeak
import CdsBenchmarks.McsLock.McsLockProgress
import CdsBenchmarks.McsLock.McsLockNodes
import CdsBenchmarks.Rcu.RcuDefs
import CdsBenchmarks.Rcu.RcuLinearizable
import CdsBenchmarks.Rcu.RcuWeak
import CdsBenchmarks.SpscQueue.EventcountDefs
import CdsBenchmarks.SpscQueue.EventcountSignals
import CdsBenchmarks.SpscQueue.SpscQueueDefs
import CdsBenchmarks.SpscQueue.SpscQueueFifo
import CdsBenchmarks.SpscQueue.SpscQueueWakeup
import CdsBenchmarks.SpscQueue.SpscQueueWeakDefs
import CdsBenchmarks.SpscQueue.SpscQueueWeakNodes
import CdsBenchmarks.SpscQueue.SpscQueueWeakFifo
import CdsBenchmarks.SpscQueue.SpscQueueWeakWakeup
import CdsBenchmarks.SpscQueue.SpscQueueConsume
import CdsBenchmarks.MpmcQueue.MpmcQueueDefs
import CdsBenchmarks.MpmcQueue.MpmcQueueTickets
import CdsBenchmarks.MpmcQueue.MpmcQueueCounts
import CdsBenchmarks.MpmcQueue.MpmcQueueRotation
import CdsBenchmarks.MpmcQueue.MpmcQueueTracking
import CdsBenchmarks.MpmcQueue.MpmcQueueHandOff
import CdsBenchmarks.MpmcQueue.MpmcQueueWaits
import CdsBenchmarks.HashMap.HashMapDefs
import CdsBenchmarks.HashMap.HashMapLinearizable
import CdsBenchmarks.ConcurrentHashMap.ConcurrentHashMapDefs
import CdsBenchmarks.ConcurrentHashMap.ConcurrentHashMapBins
import CdsBenchmarks.ConcurrentHashMap.ConcurrentHashMapInvariant
import CdsBenchmarks.ConcurrentHashMap.ConcurrentHashMapStable
import CdsBenchmarks.ConcurrentHashMap.ConcurrentHashMapSteps
import CdsBenchmarks.ConcurrentHashMap.ConcurrentHashMapOperations
import CdsBenchmarks.ConcurrentHashMap.ConcurrentHashMapResize
import CdsBenchmarks.ConcurrentHashMap.ConcurrentHashMapLinearizable
import CdsBenchmarks.ConcurrentHashMap.ConcurrentHashMapIterators
import CdsBenchmarks.ConcurrentHashMap.ConcurrentHashMapContains
import CdsBenchmarks.ChaseLev.DequeDefs
import CdsBenchmarks.ChaseLev.DequeShape
import CdsBenchmarks.ChaseLev.DequeNotes
import CdsBenchmarks.ChaseLev.DequeInvariant
import CdsBenchmarks.ChaseLev.DequeSteps
import CdsBenchmarks.ChaseLev.DequeElements
import CdsBenchmarks.ChaseLev.DequeLinearizable
import CdsBenchmarks.ChaseLev.DequeResize
import CdsBenchmarks.ChaseLev.DequeSequential
import CdsBenchmarks.ChaseLev.DequeAllocation
import CdsBenchmarks.MsQueue.Pointer
import CdsBenchmarks.MsQueue.MsQueueDefs
import CdsBenchmarks.MsQueue.MsQueueInvariant
import CdsBenchmarks.MsQueue.MsQueueFifo
import CdsBenchmarks.MsQueue.MsQueueStructure
import CdsBenchmarks.MsQueue.MsQueueConservation
import CdsBenchmarks.MsQueue.MsQueueSwaps
import CdsBenchmarks.MsQueue.MsQueueProgress
import CdsBenchmarks.MsQueue.MsQueueAllocation

import KVStorage.SkipListTraversal
import KVStorage.SkipListAgreement
import KVStorage.Slice
import KVStorage.Support.Base128
import KVStorage.Support.Words
import KVStorage.Coding
import KVStorage.CodingStream
import KVStorage.Comparator
import KVStorage.DbFormat
import KVStorage.InternalKeyCodec
import KVStorage.InternalKeyOrder
import KVStorage.BytewiseShortening
import KVStorage.InternalShortening
import KVStorage.SnapshotLookup
import KVStorage.Arena
import KVStorage.Env
import KVStorage.FileRoundTrip
import KVStorage.EnvWrapper
import KVStorage.StatusHeap
import KVStorage.StatusBuffers
import KVStorage.StatusOwnership
import KVStorage.VarintCanonical
import KVStorage.VarintGrammar
import KVStorage.LookupKeyBuffer
import KVStorage.BytewiseShortest
import KVStorage.ArenaAccounting
import KVStorage.Logging
import KVStorage.RandomPeriod
import KVStorage.Support.Mixing
import KVStorage.Hash
import KVStorage.VarintExact
import KVStorage.LengthPrefix
import KVStorage.InternalFilterPolicy
import KVStorage.InternalKeyClass
import KVStorage.StatusFailures
import KVStorage.ArenaWrap
import KVStorage.DebugString
import KVStorage.SkipListAcquire
import KVStorage.SkipListVisibility
import KVStorage.SkipListCalls
import KVStorage.SkipListLinearizable
import KVStorage.SnapshotReads
import KVStorage.ArenaLifetimes
import KVStorage.CodingCut
import KVStorage.RandomShares
import KVStorage.SkipListImage
import KVStorage.SkipListInArena
import KVStorage.SkipListScan
import KVStorage.FileStore
import KVStorage.SkipListTest
import KVStorage.SkipListTestPasses
import KVStorage.SkipListProgress
import KVStorage.SkipListLagging

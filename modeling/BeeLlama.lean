import BeeLlama.Alloc.TallocrRun
import BeeLlama.Batch.Accept
import BeeLlama.Batch.KeepTail
import BeeLlama.Gbnf.Repetition
import BeeLlama.Gguf.RoundTrip
import BeeLlama.Grammar.PartialChar
import BeeLlama.Kv.BodyPlan
import BeeLlama.Kv.FindSlotGroups
import BeeLlama.Kv.FindSlotLoop
import BeeLlama.Kv.KvarnPack
import BeeLlama.Kv.KvarnRm
import BeeLlama.Kv.ReadIdentity
import BeeLlama.Kv.RestoreRemap
import BeeLlama.Kv.Shift
import BeeLlama.Kv.StateSelect
import BeeLlama.Kv.SwaRing
import BeeLlama.Kv.TailArenaRun
import BeeLlama.Kv.TailClear
import BeeLlama.Kv.TailRefill
import BeeLlama.Kv.TailRuns
import BeeLlama.Kv.TailSources
import BeeLlama.Kv.TailTransaction
import BeeLlama.Memory.Hybrid
import BeeLlama.Ngram.Cache
import BeeLlama.Peg.ArenaJson
import BeeLlama.Peg.DelimiterGrammar
import BeeLlama.Peg.Lenient
import BeeLlama.Peg.Until
import BeeLlama.Peg.Utf8Codepoint
import BeeLlama.Recurrent.Restore
import BeeLlama.Recurrent.SuffixRm
import BeeLlama.Sampling.Dry
import BeeLlama.Sampling.PartialSort
import BeeLlama.Sampling.Penalties
import BeeLlama.Sampling.RingRun
import BeeLlama.Sampling.Speculative
import BeeLlama.Sampling.Trigger
import BeeLlama.Server.LoopGuard
import BeeLlama.Server.PromptCache
import BeeLlama.Server.Replay
import BeeLlama.Server.Response
import BeeLlama.Server.StreamManager
import BeeLlama.Server.TaskQueueRun
import BeeLlama.Server.TokenPositions
import BeeLlama.State.WriteHost
import BeeLlama.Vocab.MergeSessions
import BeeLlama.Vocab.Normalize
import BeeLlama.Vocab.Partition
import BeeLlama.Vocab.Ugm

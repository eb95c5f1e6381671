import LtlFuzzer.Service.ConcurrentTraces
import LtlFuzzer.Instrumentation.Lassos
import LtlFuzzer.Fuzzer.PrefixDirectory
import LtlFuzzer.Automata.GuardMeaning
import LtlFuzzer.Fuzzer.PathSelection
import LtlFuzzer.Service.PrepareSteps
import LtlFuzzer.Instrumentation.EventNames
import LtlFuzzer.Aflgo.SavedCrashes
import LtlFuzzer.Instrumentation.WindowTest
import LtlFuzzer.Aflgo.GapWrites
import LtlFuzzer.Automata.TransitionTable
import LtlFuzzer.Automata.StatePaths
import LtlFuzzer.Experiment.EventLogs
import LtlFuzzer.Aflgo.CommonPrefix
import LtlFuzzer.Aflgo.SendBuffers
import LtlFuzzer.Fuzzer.EmptySelections
import LtlFuzzer.Service.RejectedFormulas
import LtlFuzzer.Aflgo.VirginBits
import LtlFuzzer.Aflgo.Favorites
import LtlFuzzer.Aflgo.FavoriteRuns
import LtlFuzzer.Aflgo.FavoriteScores
import LtlFuzzer.Aflgo.MessageList
import LtlFuzzer.Aflgo.MutatedMessages
import LtlFuzzer.Aflgo.SavedSessions
import LtlFuzzer.Instrumentation.ResumedRuns
import LtlFuzzer.Fuzzer.ResumedCampaigns
import LtlFuzzer.Aflgo.HavocTweaks
import LtlFuzzer.Aflgo.Trimming
import LtlFuzzer.Aflgo.HavocStage
import LtlFuzzer.Aflgo.Splicing
import LtlFuzzer.Aflgo.RandomStages
import LtlFuzzer.Aflgo.RedundantValues
import LtlFuzzer.Foundation.Walks
import LtlFuzzer.Aflgo.DeterministicStages
import LtlFuzzer.Aflgo.DeterministicCases
import LtlFuzzer.Aflgo.Neighbours
import LtlFuzzer.Aflgo.LostNeighbours
import LtlFuzzer.Aflgo.AutoTokens
import LtlFuzzer.Aflgo.AutoDictionary

import OnnxRuntime.ArenaStats
import OnnxRuntime.AutoPad
import OnnxRuntime.CastValues
import OnnxRuntime.ConstantRoots
import OnnxRuntime.ConvFolding
import OnnxRuntime.ExecutorRuns
import OnnxRuntime.FeedDevices
import OnnxRuntime.Gather
import OnnxRuntime.GreedyPartition
import OnnxRuntime.KernelConflicts
import OnnxRuntime.KernelCreation
import OnnxRuntime.LoopOperator
import OnnxRuntime.MutationRuns
import OnnxRuntime.OutputOrder
import OnnxRuntime.OutputPairs
import OnnxRuntime.ParallelPlan
import OnnxRuntime.PatternCache
import OnnxRuntime.RawTensorData
import OnnxRuntime.RewriteRules
import OnnxRuntime.SchemaSearch
import OnnxRuntime.SgemmThreads
import OnnxRuntime.SimpleRnn
import OnnxRuntime.Tokenizer
import OnnxRuntime.TopK
import OnnxRuntime.TreeRegressor
import OnnxRuntime.TypeBindings
import OnnxRuntime.UnsqueezeFolding
import OnnxRuntime.WeightsFit

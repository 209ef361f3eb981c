import CorpusRunner.Proofs.BoundedRerun
import CorpusRunner.Proofs.Buckets
import CorpusRunner.Proofs.Chunking
import CorpusRunner.Proofs.Conservation
import CorpusRunner.Proofs.FalseStall
import CorpusRunner.Proofs.FileBytes
import CorpusRunner.Proofs.FlagLines
import CorpusRunner.Proofs.HarvestSpec
import CorpusRunner.Proofs.Manifest
import CorpusRunner.Proofs.MatrixPage
import CorpusRunner.Proofs.ProbeArrives
import CorpusRunner.Proofs.Rates
import CorpusRunner.Proofs.Replay
import CorpusRunner.Proofs.ReportText
import CorpusRunner.Proofs.Resume
import CorpusRunner.Proofs.Sessions
import CorpusRunner.Proofs.Sweep
import CorpusRunner.Proofs.Termination
import CorpusRunner.Proofs.TestSelection
import CorpusRunner.Proofs.TimeoutVerdict
import CorpusRunner.Proofs.TornAppend
import CorpusRunner.Proofs.TornRegistry
import CorpusRunner.Proofs.WorkerPool
import CorpusRunner.Proofs.WorkerTime

import Uniprocessor.CommandLine.Session
import Uniprocessor.Lifetime.Report
import Uniprocessor.Main
import Uniprocessor.Proofs.Accrual
import Uniprocessor.Proofs.Admission
import Uniprocessor.Proofs.Aging
import Uniprocessor.Proofs.Boosts
import Uniprocessor.Proofs.Calls
import Uniprocessor.Proofs.Causality
import Uniprocessor.Proofs.Contention
import Uniprocessor.Proofs.CriticalSection
import Uniprocessor.Proofs.Decoding
import Uniprocessor.Proofs.Fairness
import Uniprocessor.Proofs.Isolation
import Uniprocessor.Proofs.Labels
import Uniprocessor.Proofs.Lapse
import Uniprocessor.Proofs.Literals
import Uniprocessor.Proofs.Load
import Uniprocessor.Proofs.Loading
import Uniprocessor.Proofs.Moments
import Uniprocessor.Proofs.Numbering
import Uniprocessor.Proofs.Partition
import Uniprocessor.Proofs.Preemption
import Uniprocessor.Proofs.Queueing
import Uniprocessor.Proofs.Ranks
import Uniprocessor.Proofs.Replay
import Uniprocessor.Proofs.Retry
import Uniprocessor.Proofs.SingleServer
import Uniprocessor.Proofs.Tenure
import Uniprocessor.Proofs.Verdict
import Uniprocessor.Proofs.WakeOrder
import Uniprocessor.Scenario.Load
import Uniprocessor.Simulation
import Uniprocessor.Trace.Dump
import Uniprocessor.Trace.Summary

import ByteFlow.Session
import ByteFlow.Session.Trial
import ByteFlow.Queue.Content
import ByteFlow.Proofs.Ensures
import ByteFlow.Proofs.Edges
import ByteFlow.Proofs.Transfers
import ByteFlow.Proofs.Access
import ByteFlow.Proofs.Fifo
import ByteFlow.Proofs.Ferry
import ByteFlow.Proofs.Conduct
import ByteFlow.Proofs.OutputUse
import ByteFlow.Proofs.Advance
import ByteFlow.Proofs.Balance
import ByteFlow.Proofs.Conservation
import ByteFlow.Proofs.Attention
import ByteFlow.Proofs.Stranding
import ByteFlow.Proofs.WritableEdge
import ByteFlow.Proofs.Survival
import ByteFlow.Proofs.Backpressure
import ByteFlow.Proofs.Withstanding
import ByteFlow.Proofs.Tidiness
import ByteFlow.Proofs.Entering
import ByteFlow.Proofs.Upkeep
import ByteFlow.Proofs.Operating
import ByteFlow.Proofs.History
import ByteFlow.Proofs.Listening
import ByteFlow.Proofs.Agreement
import ByteFlow.Proofs.Manner
import ByteFlow.Proofs.Switching
import ByteFlow.Proofs.Watching
import ByteFlow.Proofs.Noting
import ByteFlow.Proofs.Duties
import ByteFlow.Proofs.Wakeup
import ByteFlow.Proofs.Wreck
import ByteFlow.Proofs.Failing
import ByteFlow.Proofs.Failure
import ByteFlow.Proofs.Cleaning
import ByteFlow.Proofs.Dryness
import ByteFlow.Proofs.Finality
import ByteFlow.Proofs.Base64
import ByteFlow.Proofs.Units
import ByteFlow.Proofs.Feeding
import ByteFlow.Proofs.LineReading
import ByteFlow.Proofs.LineSplits
import ByteFlow.Proofs.FrameReading
import ByteFlow.Proofs.Passive
import ByteFlow.Proofs.Words
import ByteFlow.Proofs.Turning
import ByteFlow.Proofs.Course
import ByteFlow.Proofs.Company
import ByteFlow.Proofs.Schedule
import ByteFlow.Proofs.Unframing
import ByteFlow.Proofs.Packing
import ByteFlow.Proofs.RoundTrip
import ByteFlow.Proofs.Copying
import ByteFlow.Proofs.Consumer
import ByteFlow.Proofs.Series
import ByteFlow.Proofs.FrameRow
import ByteFlow.Proofs.LineRow
import ByteFlow.Proofs.Vetting
import ByteFlow.Proofs.Passes
import ByteFlow.Proofs.Soundness
import ByteFlow.Proofs.Placid
import ByteFlow.Proofs.Repose
import ByteFlow.Proofs.Interruption
import ByteFlow.Proofs.Reckoning
import ByteFlow.Proofs.Contract
import ByteFlow.Proofs.ReadableEdge
import ByteFlow.Proofs.Segments

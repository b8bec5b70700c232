import ArrayLayout.Entry
import ArrayLayout.Heap.Root
import ArrayLayout.Proofs.Accounting
import ArrayLayout.Proofs.Answers
import ArrayLayout.Proofs.Balance
import ArrayLayout.Proofs.Edits
import ArrayLayout.Proofs.EmptyLevels
import ArrayLayout.Proofs.Freshness
import ArrayLayout.Proofs.HiddenExtents
import ArrayLayout.Proofs.LeftmostPath
import ArrayLayout.Proofs.Lifetime
import ArrayLayout.Proofs.Links
import ArrayLayout.Proofs.Monotonicity
import ArrayLayout.Proofs.Oversized
import ArrayLayout.Proofs.Places
import ArrayLayout.Proofs.Prediction
import ArrayLayout.Proofs.Refinement
import ArrayLayout.Proofs.Replacement
import ArrayLayout.Proofs.Reports
import ArrayLayout.Proofs.RowMajor
import ArrayLayout.Proofs.Sentences
import ArrayLayout.Proofs.Sources
import ArrayLayout.Proofs.Stopping
import ArrayLayout.Proofs.Stratified
import ArrayLayout.Proofs.Texts
import ArrayLayout.Proofs.TwoLimits
import ArrayLayout.Proofs.Verdict
import ArrayLayout.Proofs.ZeroedShape
import ArrayLayout.Sample
import ArrayLayout.Session.Run

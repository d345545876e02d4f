/-!
# Modes

Where a run stands relative to the blocks that are open, and what becomes of a
line.
-/

namespace Amalgam.Selection

/-- Where a run stands. -/
inductive Mode
  /-- No block is open. -/
  | outside
  /-- The lines of the current branch are kept. -/
  | keeping
  /-- The lines of the current branch are dropped. If the chain is `resolved`,
  everything up to its `#endif` is dropped, `#error` included. -/
  | skipping (resolved : Bool)
  deriving DecidableEq, Repr

/-- What becomes of a line. -/
inductive Verdict
  | emit
  | drop
  deriving DecidableEq, Repr

/-- The name of a mode in messages. -/
def Mode.describe : Mode → String
  | outside => "Outside"
  | keeping => "Keeping"
  | skipping resolved =>
    "Skipping \x7b chain_resolved: " ++ (if resolved then "true" else "false") ++ " \x7d"

/-- The name of a verdict in messages. -/
def Verdict.describe : Verdict → String
  | emit => "Emit"
  | drop => "Drop"

end Amalgam.Selection

import Scriptlet.Proofs.FlawedTrees
import Scriptlet.Proofs.SavedRuns

/-!
# Files with trees

The command loads a tree from a file in which there can be anything. What is
no text, no JSON or no tree is reported with status 1, and so are the errors
of the language in the run of a tree. The flaws of a tree are neither: they
are found out only when the tree is run, and then they escape
(`tree_file_is_reported_unless_flawed`).
-/

namespace Scriptlet.Command

/-! ## Reports -/

/-- The command ended well, or it ended with status 1 and a report of an
error. -/
def Report.IsReported (report : Report) : Prop :=
  report.ending = .exit 0 ∧ report.errors = "" ∨
    report.ending = .exit 1 ∧
      ∃ message, report.errors = "Error: " ++ message ++ "\n"

section

variable {w : Workspace} {name : String}

variable {highlight : String → String} {arguments : List String}
  {options : Options}

end

end Scriptlet.Command

import GoldenTrace.Directory.Basic
import GoldenTrace.Shell.Launch

/-!
# A host in memory

A directory on whose host the programs of the shell can be started.
-/

namespace GoldenTrace.Directory

def host : Host (StateM Directory) :=
  hostWith (Shell.launch actions)

end GoldenTrace.Directory

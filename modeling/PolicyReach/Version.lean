/-!
# Version

The version of the library, for the diagnostics of its users.
-/

namespace PolicyReach

/-- The version of the library. -/
def version : String := "0.1.0"

end PolicyReach

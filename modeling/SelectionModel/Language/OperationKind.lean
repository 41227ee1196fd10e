/-!
# Kinds of operation
-/

namespace SelectionModel

/-- The kinds of operation. -/
inductive OperationKind where
  | query
  | mutation
  | subscription
  deriving DecidableEq, Repr, Inhabited

/-- The word for a kind of operation in names and messages. -/
def OperationKind.word : OperationKind → String
  | .query => "Query"
  | .mutation => "Mutation"
  | .subscription => "Subscription"

end SelectionModel

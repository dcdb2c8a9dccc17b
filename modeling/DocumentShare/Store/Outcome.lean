import DocumentShare.Store.Document

/-!
# Outcomes

What a write came to. Only failures of storage and of credentials are errors; all else that is to
be expected is an outcome.
-/

namespace DocumentShare

inductive Outcome
  /-- The document was written, and the documents at these paths were pruned. -/
  | success (document : Document) (pruned : List Path)
  /-- A write at least as recent is there already. -/
  | obsolete
  /-- The write would have pruned these documents and may not. -/
  | pruningPrevented (documents : List Document)
  /-- The entry could not be made or authorised. -/
  | refused (error : StoreError)
deriving DecidableEq

namespace Outcome

def document? : Outcome → Option Document
  | success d _ => some d
  | _ => none

end Outcome

end DocumentShare

import Arkeion.Error

/-!
The queries of a full text search.
-/

namespace Arkeion.Fts

inductive Query where
  | term (text : String) (prefix_ : Bool)
  | phrase (words : List String)
  | near (terms : List String) (distance : ℕ)
  | column (column : String) (query : Query)
  | and (a b : Query)
  | or (a b : Query)
  | not (a b : Query)
  deriving DecidableEq, Repr

end Arkeion.Fts

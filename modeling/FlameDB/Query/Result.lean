import FlameDB.Query.Query

/-!
# Ranking answers

The parts of a query result that ranking commands fill in.
-/

namespace FlameDB

open Go

/-- An entry with its rank. -/
structure RankedEntry where
  entityID : Bytes
  value : Float64
  rank : ℤ
  deriving DecidableEq

/-- `RankingResult`; `around` is `none` where the source leaves the slice nil. -/
structure RankingResult where
  rank : Option ℤ := none
  score : Option Float64 := none
  count : ℤ := 0
  around : Option (List RankedEntry) := none
  deriving DecidableEq

/-- The answer of a leaderboard or ranking command. -/
inductive BoardResult where
  | leaderboard (entries : List LeaderboardEntry)
  | ranking (result : RankingResult)
  deriving DecidableEq

end FlameDB

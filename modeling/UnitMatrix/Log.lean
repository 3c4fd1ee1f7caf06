/-! What operations report beside their result. -/

namespace UnitMatrix

inductive LogRecord where
  | zeroDivisor (rows columns : Nat)
  | rankDeficient (rank rows : Nat)
  | reading (rows columns : Nat) (file : String)
  | writing (rows columns : Nat) (file : String)
  deriving DecidableEq

def LogRecord.text : LogRecord → String
  | .zeroDivisor rows columns =>
    s!"warn: division by a zero {rows}x{columns} matrix, quotient left at zero"
  | .rankDeficient rank rows => s!"debug: rank-deficient divisor: rank {rank} of {rows}"
  | .reading rows columns file => s!"debug: reading {rows}x{columns} matrix from {file}"
  | .writing rows columns file => s!"debug: writing {rows}x{columns} matrix to {file}"

/-- The record of a division by a divisor of `rows` by `columns` cells, if its rank is not full. -/
def LogRecord.ofRank? (rank rows columns : Nat) : Option LogRecord :=
  if rank = 0 ∧ 0 < rows then some (.zeroDivisor rows columns)
  else if rank < rows then some (.rankDeficient rank rows)
  else none

end UnitMatrix

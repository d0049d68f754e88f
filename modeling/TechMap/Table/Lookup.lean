import TechMap.Table.Basic
/-! Reading a table at 64 rows at once, one row for each bit position of the input words. -/

namespace TechMap.Table

/-- The row that bit `k` of the inputs spells, input `i` being bit `i`. -/
def row (k : Nat) : List UInt64 → UInt64
  | [] => 0
  | w :: ws => ((w >>> k.toUInt64) &&& (1 : UInt64)) ||| (row k ws <<< (1 : UInt64))

def lookup (table : UInt64) (inputs : List UInt64) : UInt64 :=
  (List.range 64).foldl
    (fun acc k => acc ||| (((table >>> row k inputs) &&& (1 : UInt64)) <<< k.toUInt64)) 0

/-- Repeats the low `2 ^ n` rows over the whole word. -/
def expand (table : UInt64) (n : Nat) : UInt64 :=
  let rows (k : Nat) : UInt64 := (1 : UInt64) <<< k.toUInt64
  let low := if n < 6 then table &&& (((1 : UInt64) <<< rows n) - 1) else table
  (List.range (6 - n)).foldl (fun acc k => acc ||| (acc <<< rows (n + k))) low

end TechMap.Table

/-! Function tables of up to six variables in one 64 bit word: bit `r` is the value where variable
`i` is bit `i` of `r`. A function of fewer variables ignores the upper ones. -/

namespace TechMap.Table

def projections : Array UInt64 :=
  #[0xaaaaaaaaaaaaaaaa, 0xcccccccccccccccc, 0xf0f0f0f0f0f0f0f0,
    0xff00ff00ff00ff00, 0xffff0000ffff0000, 0xffffffff00000000]

/-- The table of variable `i`. -/
def proj (i : Nat) : UInt64 := projections.getD i 0

/-- The rows where variable `i` is zero. -/
def zeroRows (i : Nat) : UInt64 := ~~~ proj i

def ones : UInt64 := 0xffffffffffffffff

/-- Compares the rows that differ in variable `i` alone. -/
def dependsOn (table : UInt64) (i : Nat) : Bool :=
  (table ^^^ (table >>> ((1 : UInt64) <<< i.toUInt64))) &&& zeroRows i != 0

-- rows with variable 0 set and the other clear move up
def upRows : Array UInt64 :=
  #[0x2222222222222222, 0x0a0a0a0a0a0a0a0a, 0x00aa00aa00aa00aa,
    0x0000aaaa0000aaaa, 0x00000000aaaaaaaa]

-- rows with variable 0 clear and the other set move down
def downRows : Array UInt64 :=
  #[0x4444444444444444, 0x5050505050505050, 0x5500550055005500,
    0x5555000055550000, 0x5555555500000000]

-- rows where the two agree stay
def fixedRows : Array UInt64 :=
  #[0x9999999999999999, 0xa5a5a5a5a5a5a5a5, 0xaa55aa55aa55aa55,
    0xaaaa5555aaaa5555, 0xaaaaaaaa55555555]

/-- Exchanges variable 0 with variable `i`, for `0 < i < 6`. -/
def exchangeFirst (table : UInt64) (i : Nat) : UInt64 :=
  let distance := ((1 : UInt64) <<< i.toUInt64) - 1
  ((table &&& upRows.getD (i - 1) 0) <<< distance)
    ||| ((table &&& downRows.getD (i - 1) 0) >>> distance)
    ||| (table &&& fixedRows.getD (i - 1) 0)

/-- Exchanges variables `i` and `j`; two inner ones go by way of variable 0. -/
def exchange (table : UInt64) (i j : Nat) : UInt64 :=
  if i = j then table
  else match i, j with
    | 0, j => exchangeFirst table j
    | i, 0 => exchangeFirst table i
    | i, j => exchangeFirst (exchangeFirst (exchangeFirst table i) j) i

/-- Moves the variables below `n` that matter down to the front, in their order, and returns where
they stood. When variable `i` is reached, all from the number kept so far up to `i` are ignored. -/
def compactSupport (table : UInt64) (n : Nat) : UInt64 × List Nat :=
  (List.range n).foldl
    (fun (table, kept) i =>
      if dependsOn table i then (exchange table kept.length i, kept ++ [i]) else (table, kept))
    (table, [])

end TechMap.Table

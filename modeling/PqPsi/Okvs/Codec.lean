import PqPsi.Okvs.Rows

/-!
# RB-OKVS encoder and decoder

Forward elimination visits the sorted rows in order; each row clears its
pivot from the rows after it, and the inner loop breaks at the first row that
starts behind the pivot. The back fill then visits the rows in reverse, with
every column that is no pivot left at zero. The loop is written once over the
way a right-hand side is stored; the overloads of the encoder are its uses
here.
-/
namespace PqPsi.Okvs
open Lib.Buffers Lib.Exceptions Lib.Ranges

/-- Computations on a store of right-hand sides that may throw. -/
abbrev RB (σ : Type) := StateT σ (Except Err)

section Elimination
variable {ρ σ : Type}

/-- The inner loop: clear the pivot of `row` from the rows behind it. -/
def eliminateBelow (bandWidth : ℕ) (xorRhs : ρ → ρ → RB σ ρ) (row : BandRow ρ)
    (lead pivot : ℕ) : List (BandRow ρ) → RB σ (List (BandRow ρ))
  | [] => pure []
  | r :: rs =>
    if r.start > pivot then
      -- sorted by start: no later row can reach the pivot either
      pure (r :: rs)
    else
      let off := pivot - r.start
      if off ≥ bandWidth ∨ !rbBit r.bits off then do
        let rs ← eliminateBelow bandWidth xorRhs row lead pivot rs
        return r :: rs
      else do
        let bits ← rbXorShifted r.bits off row.bits lead bandWidth
        let rhs ← xorRhs r.rhs row.rhs
        let rs ← eliminateBelow bandWidth xorRhs row lead pivot rs
        return ⟨r.start, bits, rhs⟩ :: rs

/-- Forward elimination of `n` rows: the reduced rows with their pivots, or
`none` when a row has become empty. -/
def eliminate (bandWidth : ℕ) (xorRhs : ρ → ρ → RB σ ρ) :
    ℕ → List (BandRow ρ) → RB σ (Option (List (BandRow ρ × ℕ)))
  | n + 1, row :: rows => do
    let lead := rbLead row.bits bandWidth
    if lead = bandWidth then
      return none
    else
      let pivot := row.start + lead
      let rows ← eliminateBelow bandWidth xorRhs row lead pivot rows
      let rest ← eliminate bandWidth xorRhs n rows
      return rest.map fun rest => (row, pivot) :: rest
  | _, _ => return some []

end Elimination

/-- The sum of the back fill: all set columns of the band except the pivot. -/
def sumBand (bandWidth start : ℕ) (bits : RBBits) (p : ℕ)
    (xorCol : List Block → ℕ → Except Err (List Block)) (sum : List Block) :
    Except Err (List Block) :=
  (List.range bandWidth).foldlM (fun sum j =>
    if !rbBit bits j then return sum
    else
      let col := start + j
      if col = p then return sum else xorCol sum col) sum

/-- The back fill into a table of rows. -/
def backFill (bandWidth : ℕ) (rows : List (RBRow × ℕ)) (okvsTable : List (List Block)) :
    Except Err (List (List Block)) :=
  rows.foldrM (fun (row, p) table => do
    let sum ← sumBand bandWidth row.start row.bits p
      (fun sum col => rbXor sum (table.getD col [])) row.rhs
    return table.set p sum) okvsTable

/-- The back fill into a flat table, with the right-hand sides in `rhs`. -/
def backFillFlat (bandWidth rowSize : ℕ) (rhs : List Block) (rows : List (RBFlatRow × ℕ))
    (okvsTable : List Block) : Except Err (List Block) :=
  rows.foldrM (fun (row, p) table => do
    let sum ← sumBand bandWidth row.start row.bits p
      (fun sum col => rbXorPtr sum (slice table (col * rowSize) rowSize) rowSize)
      (slice rhs row.rhs rowSize)
    return splice table (p * rowSize) sum) okvsTable

/-- The back fill into a flat table, with right-hand sides that the rows own. -/
def backFillOwned (bandWidth rowSize : ℕ) (rows : List (RBRow × ℕ)) (okvsTable : List Block) :
    Except Err (List Block) :=
  rows.foldrM (fun (row, p) table => do
    let sum ← sumBand bandWidth row.start row.bits p
      (fun sum col => rbXorPtr sum (slice table (col * rowSize) rowSize) rowSize) row.rhs
    return splice table (p * rowSize) (sum.take rowSize)) okvsTable

/-- The nested encoder XORs right-hand sides as vectors. -/
def xorRhsNested (a b : List Block) : RB Unit (List Block) := rbXor a b

/-- The flat encoder XORs them in place, through the offsets. -/
def xorRhsFlat (rowSize : ℕ) (a b : ℕ) : RB (List Block) ℕ := do
  modify fun rhs => rbXorAt rhs a b rowSize
  return a

section Encode
variable {F : Type} [Double F] (env : Env)

/-- `RBEncode` on nested values. The table is an in-out argument, and the
result carries the returned flag. -/
def rbEncode (setKeys : List Block) (setValues okvsTable : List (List Block))
    (params : RBParams F) : Except Err (Bool × List (List Block)) := do
  if setKeys.isEmpty then return (true, [])
  let cfg ← rbInfoOf env setKeys.length params
  let rows ← rbRows env params cfg.columns cfg.bandWidth setKeys setValues
  let valWidth := (setValues.getD 0 []).length
  let (reduced, _) ← (eliminate cfg.bandWidth xorRhsNested rows.length rows).run ()
  match reduced with
  | none => return (false, okvsTable)
  | some reduced => do
    let table ← backFill cfg.bandWidth reduced
      (List.replicate cfg.columns (List.replicate valWidth zeroBlock))
    return (true, table)

/-- `RBEncode` from nested values to a flat table. -/
def rbEncodeToFlat (setKeys : List Block) (setValues : List (List Block)) (okvsTable : List Block)
    (rowSize : ℕ) (params : RBParams F) : Except Err (Bool × List Block) := do
  if setKeys.isEmpty then return (true, [])
  throwIf (setValues.isEmpty ∨ (setValues.getD 0 []).length ≠ rowSize)
    "RBEncode flat row width mismatch"
  let cfg ← rbInfoOf env setKeys.length params
  let rows ← rbRows env params cfg.columns cfg.bandWidth setKeys setValues
  let (reduced, _) ← (eliminate cfg.bandWidth xorRhsNested rows.length rows).run ()
  match reduced with
  | none => return (false, okvsTable)
  | some reduced => do
    let table ← backFillOwned cfg.bandWidth rowSize reduced
      (List.replicate (cfg.columns * rowSize) zeroBlock)
    return (true, table)

/-- `RBEncode` of one block for each key. -/
def rbEncodeBlocks (setKeys setValues okvsTable : List Block) (params : RBParams F) :
    Except Err (Bool × List Block) := do
  throwIf (setKeys.length ≠ setValues.length) "RBEncode 1D mismatch"
  let (ok, out2d) ← rbEncode env setKeys (setValues.map fun v => [v]) [] params
  if !ok then return (false, okvsTable)
  return (true, out2d.map fun row => row.getD 0 0)

/-- `RBEncode` on flat values. -/
def rbEncodeFlat (setKeys setValues : List Block) (rowSize : ℕ) (okvsTable : List Block)
    (params : RBParams F) : Except Err (Bool × List Block) := do
  if setKeys.isEmpty then return (true, [])
  throwIf (rowSize = 0 ∨ setValues.length ≠ setKeys.length * rowSize)
    "RBEncode flat values mismatch"
  let cfg ← rbInfoOf env setKeys.length params
  let (rows, rhs) ← rbRowsFlat env params cfg.columns cfg.bandWidth setKeys setValues rowSize
  let (reduced, rhs) ← (eliminate cfg.bandWidth (xorRhsFlat rowSize) rows.length rows).run rhs
  match reduced with
  | none => return (false, okvsTable)
  | some reduced => do
    let table ← backFillFlat cfg.bandWidth rowSize rhs reduced
      (List.replicate (cfg.columns * rowSize) zeroBlock)
    return (true, table)

end Encode

/-- The decoder's loop over one band, with its break behind the last column. -/
def decodeBand (columns start : ℕ) (bits : RBBits) (rowAt : ℕ → List Block) :
    List ℕ → List Block → List Block
  | [], out => out
  | j :: js, out =>
    if !rbBit bits j then decodeBand columns start bits rowAt js out
    else
      let col := start + j
      if col ≥ columns then out
      else decodeBand columns start bits rowAt js (xorRow out (rowAt col))

/-- The same loop through `RBXor` on a vector and a pointer, which checks the width. -/
def decodeBandPtr (columns start : ℕ) (bits : RBBits) (rowSize : ℕ) (okvsTable : List Block) :
    List ℕ → List Block → Except Err (List Block)
  | [], out => return out
  | j :: js, out =>
    if !rbBit bits j then decodeBandPtr columns start bits rowSize okvsTable js out
    else
      let col := start + j
      if col ≥ columns then return out
      else do
        let out ← rbXorPtr out (slice okvsTable (col * rowSize) rowSize) rowSize
        decodeBandPtr columns start bits rowSize okvsTable js out

section Decode
variable {F : Type} [Double F] (env : Env)

/-- The shape checks that every decoder makes on a table with `columns` rows, and the band
width it goes on with. -/
def rbDecodeWidth (columns n : ℕ) (params : RBParams F) : Except Err ℕ := do
  throwIf (params.columns ≠ 0 ∧ params.columns ≠ columns) "RBDecode columns mismatch"
  let bandWidth ← rbTableW n columns params
  throwIf (bandWidth > 256) "RBDecode width > 256"
  throwIf (bandWidth > columns) "RBDecode width > columns"
  return bandWidth

/-- `RBDecode` from a nested table. -/
def rbDecode (okvsTable : List (List Block)) (setKeys : List Block) (params : RBParams F) :
    Except Err (List (List Block)) := do
  if okvsTable.isEmpty then return []
  let columns := okvsTable.length
  let valWidth := (okvsTable.getD 0 []).length
  let bandWidth ← rbDecodeWidth columns setKeys.length params
  forRanges (rbRanges env setKeys.length params.multiThread params.workerThreads)
    (fun out i => do
      let (start, bits) ← rbBand env params columns bandWidth (setKeys.getD i 0)
      let row := decodeBand columns start bits (fun col => (okvsTable.getD col []).take valWidth)
        (List.range bandWidth) (out.getD i [])
      return out.set i row)
    (List.replicate setKeys.length (List.replicate valWidth zeroBlock))

/-- `RBDecode` from a flat table to nested values. -/
def rbDecodeToNested (okvsTable : List Block) (rowSize : ℕ) (setKeys : List Block)
    (params : RBParams F) : Except Err (List (List Block)) := do
  if okvsTable.isEmpty then return []
  throwIf (rowSize = 0 ∨ okvsTable.length % rowSize ≠ 0) "RBDecode flat table size mismatch"
  let columns := okvsTable.length / rowSize
  let bandWidth ← rbDecodeWidth columns setKeys.length params
  forRanges (rbRanges env setKeys.length params.multiThread params.workerThreads)
    (fun out i => do
      let (start, bits) ← rbBand env params columns bandWidth (setKeys.getD i 0)
      let row ← decodeBandPtr columns start bits rowSize okvsTable (List.range bandWidth)
        (out.getD i [])
      return out.set i row)
    (List.replicate setKeys.length (List.replicate rowSize zeroBlock))

/-- `RBDecode` of one block for each key. -/
def rbDecodeBlocks (okvsTable setKeys : List Block) (params : RBParams F) :
    Except Err (List Block) := do
  let out2d ← rbDecode env (okvsTable.map fun x => [x]) setKeys params
  return out2d.map fun row => row.getD 0 0

/-- `RBDecode` from a flat table to flat values. -/
def rbDecodeFlat (okvsTable : List Block) (rowSize : ℕ) (setKeys : List Block)
    (params : RBParams F) : Except Err (List Block) := do
  if okvsTable.isEmpty then return []
  throwIf (rowSize = 0 ∨ okvsTable.length % rowSize ≠ 0) "RBDecode flat table size mismatch"
  let columns := okvsTable.length / rowSize
  throwIf (params.columns ≠ 0 ∧ params.columns ≠ columns) "RBDecode columns mismatch"
  let bandWidth ← rbTableW setKeys.length columns params
  throwIf (bandWidth > 256) "RBDecode width > 256"
  throwIf (bandWidth > columns) "RBDecode width > columns"
  forRanges (rbRanges env setKeys.length params.multiThread params.workerThreads)
    (fun out i => do
      let (start, bits) ← rbBand env params columns bandWidth (setKeys.getD i 0)
      let row := decodeBand columns start bits
        (fun col => slice okvsTable (col * rowSize) rowSize) (List.range bandWidth)
        (slice out (i * rowSize) rowSize)
      return splice out (i * rowSize) row)
    (List.replicate (setKeys.length * rowSize) zeroBlock)

end Decode

end PqPsi.Okvs

import FirstFit.Table.FreeList

namespace FirstFit

structure Merged where
  released : Run
  into : Run
  deriving DecidableEq, Repr

namespace Table

def format (units : Nat) : Edit Unit := do
  setSentinel head
  setSentinel units
  if units > 0 then
    setSize 0 units
    insertFront 0

def leaveRest (u size run : Int) : Edit Unit := do
  let prev ← ask (·.prev u)
  let next ← ask (·.next u)
  let rest ← compute (Checked.add u size)
  let left ← compute (Checked.sub run size)
  setSize rest left
  setFree rest true
  setPrev rest prev
  setNext rest next
  setNext prev rest
  setPrev next rest

def takeFront (u size run : Int) : Edit Unit := do
  if run > size then
    leaveRest u size run
    setSize u size
  else
    unlink u
  setFree u false

def absorb (u sofar : Int) : Edit (Option Int) := do
  if ← ask (·.isFree u) then
    let size ← ask (·.size u)
    let sum ← compute (Checked.add sofar size)
    unlink u
    return some sum
  else
    return none

def merge (u : Int) : Edit Merged := do
  let freed ← ask (·.size u)
  -- the sentinels are never free, so neither probe leaves the table
  let before ← ask (·.runBefore u)
  let above ← absorb before freed
  let after ← compute (Checked.add u freed)
  let below ← absorb after (above.getD freed)
  let start := if above.isSome then before else u
  let total := below.getD (above.getD freed)
  setSize start total
  insertFront start
  return ⟨⟨u.toNat, freed.toNat⟩, ⟨start.toNat, total.toNat⟩⟩

end Table

end FirstFit

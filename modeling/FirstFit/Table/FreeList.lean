import FirstFit.Run
import FirstFit.Table.Links
import FirstFit.Table.Tags

namespace FirstFit.Table

-- a list that comes back passes each unit at most once, and then the head
def stops (t : Table) : Nat := t.units + 1

def searchFrom (t : Table) (size : Int) : Nat → Int → Except Fault (Option (Int × Int))
  | 0, u => if u = head then .ok none else .error .endlessWalk
  | steps + 1, u =>
      if u = head then
        .ok none
      else do
        let run ← t.size u
        if run ≥ size then
          .ok (some (u, run))
        else
          t.searchFrom size steps (← t.next u)

def search (t : Table) (size : Int) : Except Fault (Option (Int × Int)) := do
  t.searchFrom size t.stops (← t.next head)

def visit (t : Table) (u : Int) : Except Fault (Option Run × Int) :=
  if u = head then
    .ok (none, u)
  else do
    let after ← t.next u
    let size ← t.size u
    return (some ⟨u.toNat, size.toNat⟩, after)

def runsFrom (t : Table) : Nat → Int → Except Fault (List Run)
  | 0, u => if u = head then .ok [] else .error .endlessWalk
  | steps + 1, u => do
      match ← t.visit u with
      | (none, _) => return []
      | (some run, after) => return run :: (← t.runsFrom steps after)

def freeRuns (t : Table) : Except Fault (List Run) := do
  t.runsFrom t.stops (← t.next head)

def insertFront (u : Int) : Edit Unit := do
  setFree u true
  let next ← ask (·.next head)
  setNext u next
  setNext head u
  setPrev u head
  setPrev next u

end FirstFit.Table

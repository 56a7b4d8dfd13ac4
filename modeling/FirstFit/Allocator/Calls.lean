import FirstFit.Allocator.Basic
import FirstFit.Ledger

namespace FirstFit

namespace Table

def takeFirst (size : Nat) : Edit (Option Nat × Option Record) := do
  match ← ask (·.search size) with
  | none => return (none, some (.exhausted size))
  | some (u, run) =>
      takeFront u size run
      return (some u.toNat, some (.allocated ⟨u.toNat, size⟩ run.toNat))

def takeAt (size unit : Nat) : Edit (Option Nat × Option Record) := do
  if ← ask (·.startsRun unit) then
    if ← ask (·.isFree unit) then
      let run ← ask (·.size unit)
      if run < size then
        return (none, none)
      else
        takeFront unit size run
        return (some unit, some (.placed ⟨unit, size⟩))
    else
      return (none, none)
  else
    throw (.notRunStart unit)

def releaseAt (unit : Nat) : Edit (Merged × Option Record) := do
  if ← ask (·.startsRun unit) then
    if ← ask (·.isFree unit) then
      throw (.alreadyFree unit)
    else
      let merged ← merge unit
      return (merged, some (.released merged.released merged.into))
  else
    throw (.notRunStart unit)

end Table

namespace Allocator

def alloc (a : Allocator) (size : Nat) : Outcome (Option Nat) :=
  if size > Word.maxUnits then
    a.refuse (.requestTooLarge size)
  else if size = 0 ∨ size > a.units then
    a.keep none
  else
    a.edit (Table.takeFirst size)

def allocAt (a : Allocator) (size unit : Nat) : Outcome (Option Nat) :=
  if size > Word.maxUnits then
    a.refuse (.requestTooLarge size)
  else if size = 0 ∨ size > a.units ∨ unit ≥ a.units then
    a.keep none
  else
    a.edit (Table.takeAt size unit)

def release (a : Allocator) (unit : Nat) : Outcome Merged :=
  if unit < a.units then
    a.edit (Table.releaseAt unit)
  else
    a.refuse (.outsideRange unit)

def free (a : Allocator) (unit : Nat) : Outcome Nat :=
  (a.release unit).map (·.released.size)

def freeMerged (a : Allocator) (unit : Nat) : Outcome Nat :=
  (a.release unit).map (·.into.size)

def perform (a : Allocator) : Call → Outcome (Option Nat)
  | .alloc size => a.alloc size
  | .allocAt size unit => a.allocAt size unit
  | .free unit => (a.free unit).map some
  | .freeMerged unit => (a.freeMerged unit).map some

end Allocator

end FirstFit

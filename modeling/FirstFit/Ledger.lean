import FirstFit.Fault
import FirstFit.Record

namespace FirstFit

inductive Call where
  | alloc (size : Nat)
  | allocAt (size unit : Nat)
  | free (unit : Nat)
  | freeMerged (unit : Nat)
  deriving DecidableEq, Repr

abbrev Ledger := List Run

namespace Ledger

def remove (ledger : Ledger) (unit : Nat) : Ledger := ledger.filter (·.start ≠ unit)

def note (ledger : Ledger) : Call → Except Fault (Option Nat) → Ledger
  | .alloc size, .ok (some unit) => ⟨unit, size⟩ :: ledger
  | .allocAt size _, .ok (some unit) => ⟨unit, size⟩ :: ledger
  | .free unit, .ok _ => ledger.remove unit
  | .freeMerged unit, .ok _ => ledger.remove unit
  | _, _ => ledger

def replay (ledger : Ledger) : Record → Ledger
  | .allocated run _ => run :: ledger
  | .placed run => run :: ledger
  | .released run _ => ledger.erase run
  | .built _ => ledger
  | .exhausted _ => ledger

def replayLine (ledger : Ledger) (line : String) : Ledger :=
  ((Record.read line).map ledger.replay).getD ledger

def replayAll (ledger : Ledger) (lines : List String) : Ledger := lines.foldl replayLine ledger

end Ledger

end FirstFit

import FirstFit.Ledger

namespace FirstFit

structure Arena where
  units : Nat
  free : List Run
  used : List Run
  deriving DecidableEq, Repr

namespace Arena

def fresh (units : Nat) : Arena where
  units := units
  free := if units = 0 then [] else [⟨0, units⟩]
  used := []

def rest (r : Run) (size : Nat) : List Run :=
  if r.size = size then [] else [⟨r.start + size, r.size - size⟩]

def takeFrom (willDo : Run → Bool) (size : Nat) : List Run → Option (Nat × List Run)
  | [] => none
  | r :: others =>
      if willDo r then
        some (r.start, rest r size ++ others)
      else
        (takeFrom willDo size others).map fun (unit, free) => (unit, r :: free)

def take (m : Arena) (willDo : Run → Bool) (size : Nat) : Option Nat × Arena :=
  match takeFrom willDo size m.free with
  | some (unit, free) => (some unit, { m with free := free, used := ⟨unit, size⟩ :: m.used })
  | none => (none, m)

def alloc (m : Arena) (size : Nat) : Option Nat × Arena :=
  if size = 0 ∨ size > m.units then (none, m) else m.take (fun r => size ≤ r.size) size

def allocAt (m : Arena) (size unit : Nat) : Option Nat × Arena :=
  if size = 0 ∨ size > m.units ∨ unit ≥ m.units then
    (none, m)
  else
    m.take (fun r => r.start = unit ∧ size ≤ r.size) size

def join (r : Run) (above below : Option Run) : Run :=
  ⟨(above.map (·.start)).getD r.start,
    (above.map (·.size)).getD 0 + r.size + (below.map (·.size)).getD 0⟩

def release (m : Arena) (r : Run) : Run × Arena :=
  let whole := join r (m.free.find? (·.stop = r.start)) (m.free.find? (·.start = r.stop))
  let apart := m.free.filter fun f => f.stop ≠ r.start ∧ f.start ≠ r.stop
  (whole, { m with free := whole :: apart, used := m.used.filter (·.start ≠ r.start) })

def startsRun (m : Arena) (unit : Nat) : Bool :=
  (m.free ++ m.used).any (·.start = unit)

def perform (m : Arena) : Call → Option (Option Nat × Arena)
  | .alloc size => if size > Word.maxUnits then none else some (m.alloc size)
  | .allocAt size unit =>
      if size > Word.maxUnits ∨ 0 < size ∧ size ≤ m.units ∧ unit < m.units ∧ ¬ m.startsRun unit then
        none
      else
        some (m.allocAt size unit)
  | .free unit =>
      (m.used.find? (·.start = unit)).map fun r => (some r.size, (m.release r).2)
  | .freeMerged unit =>
      (m.used.find? (·.start = unit)).map fun r => (some (m.release r).1.size, (m.release r).2)

end Arena

end FirstFit

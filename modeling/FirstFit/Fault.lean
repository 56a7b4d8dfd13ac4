import FirstFit.Word

namespace FirstFit

structure CapacityError where
  requested : Nat
  deriving DecidableEq, Repr

namespace CapacityError

def message (e : CapacityError) : String :=
  s!"cannot manage {e.requested} units, the table addresses at most {Word.maxUnits}"

def fields (e : CapacityError) : String :=
  "TooManyUnits \x7b requested: " ++ toString e.requested ++ ", max: " ++ toString Word.maxUnits
    ++ " \x7d"

end CapacityError

inductive Fault where
  | outsideTable (position : Int)
  | nextOutOfRange (link : Int)
  | prevOutOfRange (link : Int)
  | badExtent
  | sumOverflow
  | differenceOverflow
  | outsideRange (unit : Nat)
  | notRunStart (unit : Nat)
  | alreadyFree (unit : Nat)
  | requestTooLarge (size : Nat)
  | capacity (error : CapacityError)
  | endlessWalk
  deriving DecidableEq, Repr

def Fault.message : Fault → String
  | .outsideTable position => s!"unit {position} outside table"
  | .nextOutOfRange link => s!"next link {link} out of range"
  | .prevOutOfRange link => s!"prev link {link} out of range"
  | .badExtent => "assertion failed: size >= 1 && unit + size <= self.units"
  | .sumOverflow => "attempt to add with overflow"
  | .differenceOverflow => "attempt to subtract with overflow"
  | .outsideRange unit => s!"unit {unit} outside the managed range"
  | .notRunStart unit => s!"unit {unit} is not the start of a run"
  | .alreadyFree unit => s!"unit {unit} is already free"
  | .requestTooLarge size => s!"request for {size} units exceeds {Word.maxUnits}"
  | .capacity error => error.message
  | .endlessWalk => "the walk never ends"

namespace Checked

def Representable (x : Int) : Prop := -2147483648 ≤ x ∧ x ≤ 2147483647

instance (x : Int) : Decidable (Representable x) :=
  inferInstanceAs (Decidable (_ ∧ _))

def add (x y : Int) : Except Fault Int :=
  if Representable (x + y) then .ok (x + y) else .error .sumOverflow

def sub (x y : Int) : Except Fault Int :=
  if Representable (x - y) then .ok (x - y) else .error .differenceOverflow

theorem add_of_representable {x y : Int} (h : Representable (x + y)) : add x y = .ok (x + y) :=
  if_pos h

theorem sub_of_representable {x y : Int} (h : Representable (x - y)) : sub x y = .ok (x - y) :=
  if_pos h

end Checked

end FirstFit

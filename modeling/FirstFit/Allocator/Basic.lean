import FirstFit.Record
import FirstFit.Summary
import FirstFit.Table.Runs

namespace FirstFit

structure Allocator where
  table : Table
  deriving DecidableEq

structure Outcome (α : Type) where
  answer : Except Fault α
  after : Allocator
  record : Option Record

def Outcome.map {α β : Type} (f : α → β) (o : Outcome α) : Outcome β :=
  { o with answer := o.answer.map f }

namespace Allocator

def edit {α : Type} (a : Allocator) (program : Edit (α × Option Record)) : Outcome α :=
  match program a.table with
  | .ok (value, record) t => ⟨.ok value, ⟨t⟩, record⟩
  | .error fault t => ⟨.error fault, ⟨t⟩, none⟩

def refuse {α : Type} (a : Allocator) (fault : Fault) : Outcome α := ⟨.error fault, a, none⟩

def keep {α : Type} (a : Allocator) (value : α) : Outcome α := ⟨.ok value, a, none⟩

def create (units : Nat) : Except Fault (Allocator × Record) :=
  if units > Word.maxUnits then
    .error (.capacity ⟨units⟩)
  else
    match Table.format units (Table.blank units) with
    | .ok () t => .ok (⟨t⟩, .built units)
    | .error fault _ => .error fault

def units (a : Allocator) : Nat := a.table.units

def size (a : Allocator) (unit : Nat) : Except Fault Nat :=
  if unit < a.units then
    (a.table.size unit).map Int.toNat
  else
    .error (.outsideRange unit)

def isFree (a : Allocator) (unit : Nat) : Except Fault Bool :=
  if unit < a.units then a.table.isFree unit else .error (.outsideRange unit)

def freeRuns (a : Allocator) : Except Fault (List Run) := a.table.freeRuns

def freeUnits (a : Allocator) : Except Fault Nat := a.freeRuns.map Run.total

def firstStop (a : Allocator) : Except Fault Int := a.table.next head

def visit (a : Allocator) (stop : Int) : Except Fault (Option Run × Int) := a.table.visit stop

def summary (a : Allocator) : Except Fault Summary :=
  a.freeRuns.map (⟨a.units, ·⟩)

end Allocator

end FirstFit

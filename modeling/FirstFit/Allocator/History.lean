import FirstFit.Allocator.Calls
import FirstFit.Table.Tiling

namespace FirstFit

inductive Request where
  | call (call : Call)
  | freeRuns
  | freeUnits
  | units
  | line
  | compact
  | indented
  | size (unit : Nat)
  | isFree (unit : Nat)
  deriving DecidableEq, Repr

inductive Reply where
  | answer (answer : Option Nat)
  | runs (runs : List Run)
  | count (n : Nat)
  | text (text : String)
  | flag (free : Bool)
  deriving DecidableEq, Repr

def Outcome.lines {α : Type} (o : Outcome α) (limit : Level) : List String :=
  (o.record.toList.filter (·.shownAt limit)).map Record.line

namespace Allocator

def performAll (a : Allocator) (calls : List Call) : Allocator :=
  calls.foldl (fun a call => (a.perform call).after) a

def trail (a : Allocator) : List Call → List (Outcome (Option Nat))
  | [] => []
  | call :: rest => a.perform call :: (a.perform call).after.trail rest

inductive Reaches (units : Nat) : Allocator → Ledger → Prop where
  | create {a : Allocator} {r : Record} :
      create units = .ok (a, r) → Reaches units a []
  | perform {a : Allocator} {live : Ledger} (call : Call) :
      Reaches units a live →
        Reaches units (a.perform call).after (live.note call (a.perform call).answer)

def log (a : Allocator) (limit : Level) : List Call → List String
  | [] => []
  | call :: rest => (a.perform call).lines limit ++ (a.perform call).after.log limit rest

def look (a : Allocator) (reply : Except Fault Reply) : Outcome Reply := ⟨reply, a, none⟩

def serve (a : Allocator) : Request → Outcome Reply
  | .call call => (a.perform call).map .answer
  | .freeRuns => a.look (a.freeRuns.map .runs)
  | .freeUnits => a.look (a.freeUnits.map .count)
  | .units => a.look (.ok (.count a.units))
  | .line => a.look (a.summary.map fun s => .text s.line)
  | .compact => a.look (a.summary.map fun s => .text s.compact)
  | .indented => a.look (a.summary.map fun s => .text s.indented)
  | .size unit => a.look ((a.size unit).map .count)
  | .isFree unit => a.look ((a.isFree unit).map .flag)

def session (a : Allocator) : List Request → List (Except Fault Reply × Option Record)
  | [] => []
  | request :: rest =>
      let o := a.serve request
      (o.answer, o.record) :: o.after.session rest

def StartsRun (a : Allocator) (unit : Nat) : Prop :=
  ∃ runs, a.table.Tiles 0 runs ∧ ∃ r ∈ runs, unit = r.start

def EndsRun (a : Allocator) (unit : Nat) : Prop :=
  ∃ runs, a.table.Tiles 0 runs ∧ ∃ r ∈ runs, unit + 1 = r.stop

def InPlace (a : Allocator) : Request → Prop
  | .size unit => a.StartsRun unit
  | .isFree unit => a.StartsRun unit ∨ a.EndsRun unit
  | _ => True

def AllInPlace (a : Allocator) : List Request → Prop
  | [] => True
  | request :: rest => a.InPlace request ∧ (a.serve request).after.AllInPlace rest

end Allocator

end FirstFit

import FirstFit.Proofs.Coverage
import FirstFit.Proofs.Texts
import FirstFit.Proofs.Refinement
import FirstFit.Proofs.Taking

namespace FirstFit

namespace Ledger

theorem replayLine_line (ledger : Ledger) (r : Record) :
    ledger.replayLine r.line = ledger.replay r := by
  rw [replayLine, Record.read_line]
  rfl

theorem replayAll_append (ledger : Ledger) (first second : List String) :
    ledger.replayAll (first ++ second) = (ledger.replayAll first).replayAll second :=
  List.foldl_append

end Ledger

theorem Outcome.lines_trace {α : Type} (o : Outcome α) :
    o.lines .trace = o.record.toList.map Record.line := by
  have all (r : Record) : r.shownAt .trace = true := by cases r <;> rfl
  rw [lines, List.filter_eq_self.2 fun r _ => all r]

theorem Arena.Sound.erase_used {m : Arena} {r : Run} (h : m.Sound) (hr : r ∈ m.used) :
    m.used.erase r = Ledger.remove m.used r.start := by
  rw [h.nodup_used.erase_eq_filter, Ledger.remove]
  refine List.filter_congr fun x hx => ?_
  have same : x = r ↔ x.start = r.start := ⟨congrArg _, h.eq_of_used_start hx hr⟩
  simp [bne, beq_eq_decide, same]

theorem Arena.Sound.mem_free_release_iff {m : Arena} {r : Run} (h : m.Sound) (hr : r ∈ m.used)
    (f : Run) : f ∈ (m.release r).2.free ∧ r.Within f ↔ f = (m.release r).1 := by
  have into := m.mem_free_release r
  have within := m.within_release r
  have first : r.Contains r.start :=
    Run.contains_start (h.partition.positive r (mem_runs_of_used hr))
  constructor
  · rintro ⟨fFree, inF⟩
    exact (h.release hr).partition.eq_of_contains (mem_runs_of_free fFree) (mem_runs_of_free into)
      (first.within inF) (first.within within)
  · rintro rfl
    exact ⟨into, within⟩

namespace Allocator

inductive Tells (a after : Allocator) : Call → Except Fault (Option Nat) → List String → Prop where
  | refused {call : Call} {fault : Fault} : Tells a after call (.error fault) []
  | declined {size : Nat} :
      size = 0 ∨ size > a.units → Tells a after (.alloc size) (.ok none) []
  | exhausted {size : Nat} :
      0 < size → size ≤ a.units →
        Tells a after (.alloc size) (.ok none) [Record.line (.exhausted size)]
  | allocated {size unit source : Nat} {free : List Run} :
      a.freeRuns = .ok free → (∀ f, f ∈ free ∧ f.start = unit ↔ f = ⟨unit, source⟩) →
        Tells a after (.alloc size) (.ok (some unit))
          [Record.line (.allocated ⟨unit, size⟩ source)]
  | unplaced {size unit : Nat} : Tells a after (.allocAt size unit) (.ok none) []
  | placed {size unit : Nat} :
      Tells a after (.allocAt size unit) (.ok (some unit)) [Record.line (.placed ⟨unit, size⟩)]
  | released {call : Call} {unit size answer : Nat} {into : Run} {free : List Run} :
      call = .free unit ∧ answer = size ∨ call = .freeMerged unit ∧ answer = into.size →
        a.UsedRun ⟨unit, size⟩ → (a.free unit).answer = .ok size →
        (a.freeMerged unit).answer = .ok into.size →
        after.freeRuns = .ok free →
        (∀ f, f ∈ free ∧ Run.Within ⟨unit, size⟩ f ↔ f = into) →
        Tells a after call (.ok (some answer)) [Record.line (.released ⟨unit, size⟩ into)]

def Telling (a : Allocator) (call : Call) : Prop :=
  Tells a (a.perform call).after call (a.perform call).answer ((a.perform call).lines .trace)

variable {a : Allocator} {m : Arena} {call : Call} {unit : Nat}

theorem telling_of_outcome {after : Allocator} {answer : Except Fault (Option Nat)}
    {record : Option Record} (program : a.perform call = ⟨answer, after, record⟩)
    (tells : Tells a after call answer (record.toList.map Record.line)) : a.Telling call := by
  rw [Telling, program, Outcome.lines_trace]
  exact tells

theorem telling_alloc (h : a.table.Shows m) (size : Nat) : a.Telling (.alloc size) := by
  have same : a.units = m.units := h.units
  have report : m.report (.alloc size) = m.searchReport size := rfl
  cases follows_alloc h size with
  | refused _ _ program => exact telling_of_outcome program .refused
  | declined refusal arena program =>
    refine telling_of_outcome program ?_
    rw [report, Arena.searchReport]
    by_cases never : size = 0 ∨ size > m.units
    · rw [if_pos never]
      exact .declined (same ▸ never)
    · have small := h.arena_small
      have search : m.perform (.alloc size) = some (m.take (fun r => size ≤ r.size) size) :=
        h.sound.perform_alloc (by omega) (by omega)
      have none := congrArg Prod.fst (Option.some.inj (arena.symm.trans search))
      rw [Arena.take_fst, eq_comm, Option.map_eq_none_iff] at none
      rw [if_neg never, none]
      exact .exhausted (by omega) (by omega)
  | @done value _ _ _ _ program _ =>
    have answered : (a.alloc size).answer = .ok (some value) := by
      change (a.perform (.alloc size)).answer = _
      rw [program]
    obtain ⟨positive, before, r, after, split, rfl, fits, short⟩ := split_of_alloc h answered
    refine telling_of_outcome (alloc_of_split h split short positive fits) ?_
    have rFree : r ∈ m.free := by simp [split]
    refine .allocated h.freeRuns_eq fun f => ⟨?_, ?_⟩
    · rintro ⟨fFree, start⟩
      exact h.sound.partition.eq_of_start (Arena.mem_runs_of_free fFree)
        (Arena.mem_runs_of_free rFree) start
    · rintro rfl
      exact ⟨rFree, rfl⟩

theorem telling_allocAt (h : a.table.Shows m) (size unit : Nat) :
    a.Telling (.allocAt size unit) := by
  cases follows_allocAt h size unit with
  | refused _ _ program => exact telling_of_outcome program .refused
  | declined _ arena program =>
    have report : m.report (.allocAt size unit) =
        (m.allocAt size unit).1.map fun start => .placed ⟨start, size⟩ := rfl
    rw [Arena.perform] at arena
    split at arena
    case isTrue => cases arena
    rw [Option.some.inj arena] at report
    refine telling_of_outcome program ?_
    rw [report]
    exact .unplaced
  | done _ arena _ _ =>
    obtain ⟨positive, take⟩ := Arena.take_of_allocAt arena
    obtain ⟨before, r, after, split, will, -, rfl, -⟩ := Arena.take_eq_some take
    obtain ⟨rfl, fits⟩ := of_decide_eq_true will
    exact telling_of_outcome (allocAt_of_split h split positive fits) .placed

theorem telling_release (count : Merged → Nat) (h : a.table.Shows m)
    (program : a.perform call = ((a.release unit).map count).map some)
    (counts : ∀ r into, call = .free unit ∧ count ⟨r, into⟩ = r.size ∨
      call = .freeMerged unit ∧ count ⟨r, into⟩ = into.size) : a.Telling call := by
  rcases release_cases h unit with ⟨fault, -, -, released⟩ | ⟨r, t, -, found, released, shows'⟩
  · rw [released] at program
    exact telling_of_outcome program .refused
  · have rUsed := List.mem_of_find?_eq_some found
    have start : r.start = unit := by simpa using List.find?_some found
    subst start
    rw [released] at program
    refine telling_of_outcome program ?_
    exact .released (counts r _) ((usedRun_iff h r).2 rUsed) (free_answer h rUsed)
      (freeMerged_answer h rUsed) shows'.freeRuns_eq (h.sound.mem_free_release_iff rUsed)

theorem telling_of_shows (h : a.table.Shows m) (call : Call) : a.Telling call := by
  cases call with
  | alloc size => exact telling_alloc h size
  | allocAt size unit => exact telling_allocAt h size unit
  | free unit => exact telling_release (·.released.size) h rfl fun _ _ => Or.inl ⟨rfl, rfl⟩
  | freeMerged unit => exact telling_release (·.into.size) h rfl fun _ _ => Or.inr ⟨rfl, rfl⟩

theorem Tells.replayAll {after : Allocator} {answer : Except Fault (Option Nat)}
    {lines : List String} (tells : Tells a after call answer lines) (h : a.table.Shows m) :
    Ledger.replayAll m.used lines = Ledger.note m.used call answer := by
  have one (r : Record) : Ledger.replayAll m.used [r.line] = Ledger.replay m.used r :=
    Ledger.replayLine_line m.used r
  cases tells with
  | refused => cases call <;> rfl
  | declined => rfl
  | exhausted => exact one _
  | allocated => exact one _
  | unplaced => rfl
  | placed => exact one _
  | released kind used =>
    have erased := h.sound.erase_used ((usedRun_iff h _).1 used)
    rw [one]
    rcases kind with ⟨rfl, -⟩ | ⟨rfl, -⟩
    · exact erased
    · exact erased

theorem replayAll_log (h : a.table.Shows m) (calls : List Call) :
    Ledger.replayAll m.used (a.log .trace calls) = a.ledger m.used calls := by
  induction calls generalizing a m with
  | nil => rfl
  | cons call rest ih =>
    obtain ⟨m', shows', -, used⟩ := perform_shows h call
    rw [log, Ledger.replayAll_append, (telling_of_shows h call).replayAll h, ← used, ih shows',
      used, ledger]

theorem log_append (a : Allocator) (limit : Level) (before after : List Call) :
    a.log limit (before ++ after) = a.log limit before ++ (a.performAll before).log limit after := by
  induction before generalizing a with
  | nil => rfl
  | cons call rest ih =>
    rw [List.cons_append, log, log, ih, List.append_assoc]
    rfl

structure Faithful (a : Allocator) (calls : List Call) : Prop where
  told : ∀ call, (a.performAll calls).Telling call
  grows : ∀ call, a.log .trace (calls ++ [call]) =
    a.log .trace calls ++ ((a.performAll calls).perform call).lines .trace
  distinct : (Ledger.replayAll [] (a.log .trace calls)).Nodup
  used : ∀ r, r ∈ Ledger.replayAll [] (a.log .trace calls) ↔ (a.performAll calls).UsedRun r

theorem log_faithful (units : Nat) (small : units ≤ Word.maxUnits) :
    Record.Worded ∧
      ∃ a record, create units = .ok (a, record) ∧ ∀ calls : List Call, a.Faithful calls := by
  obtain ⟨a, made, fresh⟩ := create_shows small
  refine ⟨Record.worded, a, _, made, fun calls => ?_⟩
  obtain ⟨-, m, h, -, used⟩ := reaches_shows (reaches_performAll (.create made) calls)
  have used : m.used = Ledger.replayAll [] (a.log .trace calls) :=
    used.trans (replayAll_log fresh calls).symm
  refine ⟨telling_of_shows h, fun call => ?_, ?_, fun r => ?_⟩
  · rw [log_append, log, log, List.append_nil]
  · rw [← used]
    exact h.sound.nodup_used
  · rw [← used]
    exact (usedRun_iff h r).symm

def busyCalls : List Call :=
  [.alloc 2, .allocAt 1 2, .alloc 4, .allocAt 1 0, .free 1, .alloc 2, .freeMerged 2, .free 0]

theorem log_faithful_busy : 5 ≤ Word.maxUnits ∧ Record.Worded ∧
    ∃ a record, create 5 = .ok (a, record) ∧ a.Faithful busyCalls ∧
      a.log .trace busyCalls =
        ["TRACE alloc 2 units at 0 (from a run of 5)",
          "TRACE alloc 1 units at fixed 2",
          "TRACE alloc 4 units failed",
          "TRACE alloc 2 units at 3 (from a run of 2)",
          "TRACE free 1 units at 2, free run [2, 3)",
          "TRACE free 2 units at 0, free run [0, 3)"] ∧
      Ledger.replayAll [] (a.log .trace busyCalls) = [⟨3, 2⟩] := by
  obtain ⟨worded, a, record, made, faithful⟩ := log_faithful 5 (by decide)
  have same := (create_eq (by decide)).symm.trans made
  cases same
  refine ⟨by decide, worded, _, _, made, faithful busyCalls, ?_, ?_⟩
  · decide +kernel
  · decide +kernel

end Allocator

end FirstFit

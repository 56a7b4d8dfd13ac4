import FirstFit.Proofs.Histories

namespace FirstFit

open Text

theorem Run.numbersFrom_interval (r : Run) (rest : List Char) :
    numbersFrom none (r.interval.toList ++ rest) = r.start :: r.stop :: numbersFrom none rest := by
  simp [interval, toString]

theorem Run.numbersFrom_range (r : Run) {rest : List Char} (h : Breaks rest) :
    numbersFrom none (r.range.toList ++ rest) = r.start :: r.stop :: numbersFrom none rest := by
  simp [range, toString, h]

namespace Summary

variable {s t : Summary}

def ends : List Run → List Nat
  | [] => []
  | r :: rest => r.start :: r.stop :: ends rest

theorem runsBetween_ends (runs : List Run) : runsBetween (ends runs) = some runs := by
  induction runs with
  | nil => rfl
  | cons r rest ih =>
    have inOrder : r.start ≤ r.stop := Nat.le_add_right ..
    have back : r.stop - r.start = r.size := Nat.add_sub_cancel_left ..
    rw [ends, runsBetween, if_pos inOrder, ih, back]
    rfl

theorem numbersFrom_intervals (runs : List Run) :
    numbersFrom none (intervals runs).toList = ends runs := by
  induction runs with
  | nil => rfl
  | cons r rest ih => simp [intervals, ends, Run.numbersFrom_interval, ih]

theorem numbersFrom_commaRanges (runs : List Run) {rest : List Char} (h : Breaks rest) :
    numbersFrom none ((commaRanges runs).toList ++ rest) = ends runs ++ numbersFrom none rest := by
  induction runs with
  | nil => rfl
  | cons r others ih =>
    cases others with
    | nil => simp [commaRanges, ends, Run.numbersFrom_range r h]
    | cons => simp [commaRanges, ends, Run.numbersFrom_range, ih]

theorem numbersFrom_rangeLines (runs : List Run) (rest : List Char) :
    numbersFrom none ((rangeLines runs).toList ++ rest) = ends runs ++ numbersFrom none rest := by
  induction runs with
  | nil => rfl
  | cons r others ih => simp [rangeLines, ends, Run.numbersFrom_range, ih]

theorem read_of_numbers {text : String} (h : numbers text = s.units :: ends s.free) :
    read text = some s := by
  rw [read, h]
  simp [runsBetween_ends]

theorem read_line (s : Summary) : read s.line = some s := by
  apply read_of_numbers
  by_cases none : s.free = []
  · simp [numbers, line, none, ends]
  · simp [numbers, line, none, numbersFrom_intervals]

theorem read_compact (s : Summary) : read s.compact = some s := by
  apply read_of_numbers
  unfold compact
  simp [numbers, numbersFrom_commaRanges]

theorem read_indented (s : Summary) : read s.indented = some s := by
  apply read_of_numbers
  unfold indented
  by_cases none : s.free = []
  · simp [numbers, rangeBlock, none, ends]
  · simp [numbers, rangeBlock, none, numbersFrom_rangeLines]

def forms : List (Summary → String) := [line, compact, indented]

theorem read_form {form : Summary → String} (h : form ∈ forms) (s : Summary) :
    read (form s) = some s := by
  simp only [forms, List.mem_cons, List.not_mem_nil, or_false] at h
  rcases h with rfl | rfl | rfl
  · exact read_line s
  · exact read_compact s
  · exact read_indented s

theorem form_inj {form : Summary → String} (h : form ∈ forms) : form s = form t ↔ s = t := by
  refine ⟨fun same => Option.some.inj ?_, congrArg form⟩
  rw [← read_form h s, ← read_form h t, same]

end Summary

namespace Record

def figures : Record → List Nat
  | .built units => [units]
  | .allocated run source => [run.size, run.start, source]
  | .exhausted size => [size]
  | .placed run => [run.size, run.start]
  | .released run into => [run.size, run.start, into.start, into.stop]

structure Worded : Prop where
  built : ∀ units, line (.built units) =
    "DEBUG " ++ ("unit free list over " ++ toString units ++ " units")
  allocated : ∀ run source, line (.allocated run source) =
    "TRACE " ++ ("alloc " ++ toString run.size ++ " units at " ++ toString run.start ++
      " (from a run of " ++ toString source ++ ")")
  exhausted : ∀ size, line (.exhausted size) =
    "TRACE " ++ ("alloc " ++ toString size ++ " units failed")
  placed : ∀ run, line (.placed run) =
    "TRACE " ++ ("alloc " ++ toString run.size ++ " units at fixed " ++ toString run.start)
  released : ∀ run into, line (.released run into) =
    "TRACE " ++ ("free " ++ toString run.size ++ " units at " ++ toString run.start ++
      ", free run [" ++ toString into.start ++ ", " ++ toString (into.start + into.size) ++ ")")

theorem line_of_level {r : Record} {name text : String} (level : r.level.name ++ " " = name)
    (message : r.message = text) : r.line = name ++ text := by
  rw [line, level, message]

theorem message_released (run into : Run) : message (.released run into) =
    "free " ++ toString run.size ++ " units at " ++ toString run.start ++ ", free run [" ++
      toString into.start ++ ", " ++ toString (into.start + into.size) ++ ")" := by
  have opens : ", free run [" = ", free run " ++ "[" := by decide
  have message : message (.released run into) = "free " ++ toString run.size ++ " units at " ++
      toString run.start ++ ", free run " ++ into.interval := rfl
  have interval : into.interval = "[" ++ toString into.start ++ ", " ++
      toString (into.start + into.size) ++ ")" := rfl
  rw [message, interval, opens]
  simp only [String.append_assoc]

theorem worded : Worded := by
  have debug : Level.debug.name ++ " " = "DEBUG " := by decide
  have trace : Level.trace.name ++ " " = "TRACE " := by decide
  exact {
    built := fun _ => line_of_level debug rfl
    allocated := fun _ _ => line_of_level trace rfl
    exhausted := fun _ => line_of_level trace rfl
    placed := fun _ => line_of_level trace rfl
    released := fun run into => line_of_level trace (message_released run into) }

theorem numbers_line (r : Record) : numbers r.line = r.figures := by
  unfold line message
  cases r with
  | built => simp [numbers, figures, level, Level.name, toString]
  | allocated => simp [numbers, figures, level, Level.name, toString]
  | exhausted => simp [numbers, figures, level, Level.name, toString]
  | placed => simp [numbers, figures, level, Level.name, toString]
  | released run into =>
    have last := into.numbersFrom_interval []
    rw [List.append_nil] at last
    simp [numbers, figures, level, Level.name, toString, last]

theorem read_line (r : Record) : read r.line = some r := by
  rw [read, numbers_line]
  cases r <;> simp [figures, ofDebug, line, level, Level.name, Run.stop]

end Record

namespace Allocator

def text (a : Allocator) (form : Summary → String) : Except Fault String := a.summary.map form

variable {a b : Allocator} {units units' : Nat} {live live' : Ledger}

theorem text_of_reaches (reached : Reaches units a live) :
    ∃ free, a.freeRuns = .ok free ∧ ∀ form, a.text form = .ok (form ⟨a.units, free⟩) := by
  obtain ⟨-, m, h, -, -⟩ := reaches_shows reached
  have runs : a.freeRuns = .ok m.free := h.freeRuns_eq
  refine ⟨m.free, runs, fun form => ?_⟩
  rw [text, summary, runs]
  rfl

theorem texts_of_reaches (reached : Reaches units a live) (reached' : Reaches units' b live') :
    ∀ form ∈ Summary.forms,
      (∃ free text, a.freeRuns = .ok free ∧ a.text form = .ok text ∧
        Summary.read text = some ⟨a.units, free⟩) ∧
      (a.text form = b.text form ↔ a.units = b.units ∧ a.freeRuns = b.freeRuns) := by
  intro form known
  obtain ⟨free, runs, written⟩ := text_of_reaches reached
  obtain ⟨free', runs', written'⟩ := text_of_reaches reached'
  refine ⟨⟨free, _, runs, written form, Summary.read_form known _⟩, ?_⟩
  rw [written, written', runs, runs', Except.ok.injEq, Except.ok.injEq, Summary.form_inj known,
    Summary.mk.injEq]

def givenBack (order : List Nat) : Allocator :=
  performAll ⟨Table.formatted 3⟩ ([1, 1, 1].map .alloc ++ order.map .free)

theorem texts_of_other_order : Reaches 3 (givenBack [0, 2]) [⟨1, 1⟩] ∧
    Reaches 3 (givenBack [2, 0]) [⟨1, 1⟩] ∧
    (givenBack [0, 2]).freeRuns = .ok [⟨2, 1⟩, ⟨0, 1⟩] ∧
    (givenBack [2, 0]).freeRuns = .ok [⟨0, 1⟩, ⟨2, 1⟩] ∧
    ∀ form ∈ Summary.forms,
      (∃ text, (givenBack [0, 2]).text form = .ok text ∧
        Summary.read text = some ⟨3, [⟨2, 1⟩, ⟨0, 1⟩]⟩) ∧
      (givenBack [0, 2]).text form ≠ (givenBack [2, 0]).text form := by
  have first : Reaches 3 (givenBack [0, 2]) [⟨1, 1⟩] :=
    reaches_of_ledger (by decide) _ (by decide +kernel)
  have second : Reaches 3 (givenBack [2, 0]) [⟨1, 1⟩] :=
    reaches_of_ledger (by decide) _ (by decide +kernel)
  have runs : (givenBack [0, 2]).freeRuns = .ok [⟨2, 1⟩, ⟨0, 1⟩] := rfl
  have runs' : (givenBack [2, 0]).freeRuns = .ok [⟨0, 1⟩, ⟨2, 1⟩] := rfl
  refine ⟨first, second, runs, runs', fun form known => ?_⟩
  obtain ⟨⟨free, text, listed, written, readBack⟩, same⟩ := texts_of_reaches first second form known
  cases runs.symm.trans listed
  refine ⟨⟨text, written, readBack⟩, fun eq => ?_⟩
  have lists := (same.1 eq).2
  rw [runs, runs'] at lists
  cases lists

end Allocator

end FirstFit

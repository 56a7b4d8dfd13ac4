import FirstFit.Proofs.Coverage
import FirstFit.Proofs.Effects
import Mathlib.Algebra.GroupWithZero.Nat
import Mathlib.Data.List.Nodup

namespace FirstFit

namespace Run

def cuts (size : Nat) (r : Run) : List Nat :=
  (List.range (r.size / size)).map fun i => r.start + i * size

def leftover (size : Nat) (r : Run) : Run := ⟨r.start + r.size / size * size, r.size % size⟩

def pieces (size : Nat) (free : List Run) : List Nat := free.flatMap (cuts size)

def leftovers (size : Nat) (free : List Run) : List Run :=
  (free.map (leftover size)).filter fun r => 0 < r.size

variable {size u : Nat} {r : Run} {free before after : List Run}

theorem pieces_append : pieces size (before ++ after) = pieces size before ++ pieces size after :=
  List.flatMap_append

theorem leftovers_append :
    leftovers size (before ++ after) = leftovers size before ++ leftovers size after := by
  rw [leftovers, List.map_append, List.filter_append]
  rfl

theorem length_pieces : (pieces size free).length = (free.map fun r => r.size / size).sum := by
  simp [pieces, cuts, List.length_flatMap]

section Short

theorem cuts_eq_nil_iff (positive : 0 < size) : cuts size r = [] ↔ r.size < size := by
  rw [cuts, List.map_eq_nil_iff, List.range_eq_nil, Nat.div_eq_zero_iff]
  omega

theorem pieces_eq_nil_iff (positive : 0 < size) :
    pieces size free = [] ↔ ∀ f ∈ free, f.size < size := by
  simp only [pieces, List.flatMap_eq_nil_iff, cuts_eq_nil_iff positive]

theorem leftovers_of_short (positive : ∀ f ∈ free, 0 < f.size) (short : ∀ f ∈ free, f.size < size) :
    leftovers size free = free := by
  have same : free.map (leftover size) = free := by
    refine (List.map_congr_left fun f hf => ?_).trans (List.map_id free)
    rw [leftover, Nat.div_eq_of_lt (short f hf), Nat.mod_eq_of_lt (short f hf), Nat.zero_mul]
    rfl
  rw [leftovers, same, List.filter_eq_self]
  exact fun f hf => decide_eq_true (positive f hf)

end Short

section Piece

theorem cuts_of_fits (positive : 0 < size) (fits : size ≤ r.size) :
    cuts size r = r.start :: cuts size ⟨r.start + size, r.size - size⟩ := by
  have count : r.size / size = (r.size - size) / size + 1 := Nat.div_eq_sub_div positive fits
  rw [cuts, count, List.range_succ_eq_map, List.map_cons, List.map_map, Nat.zero_mul]
  refine congrArg (List.cons _) (List.map_congr_left fun i _ => ?_)
  simp only [Function.comp, Nat.succ_mul]
  omega

theorem leftover_of_fits (positive : 0 < size) (fits : size ≤ r.size) :
    leftover size ⟨r.start + size, r.size - size⟩ = leftover size r := by
  have count : r.size / size = (r.size - size) / size + 1 := Nat.div_eq_sub_div positive fits
  have same : r.size % size = (r.size - size) % size := Nat.mod_eq_sub_mod fits
  rw [leftover, leftover, count, same, Nat.succ_mul, Nat.add_comm (_ * _), Nat.add_assoc]

theorem pieces_rest (positive : 0 < size) (fits : size ≤ r.size) :
    pieces size [r] = r.start :: pieces size (Arena.rest r size) := by
  rw [pieces, List.flatMap_singleton, cuts_of_fits positive fits, Arena.rest]
  split
  case isTrue exact =>
    rw [(cuts_eq_nil_iff positive).2 (by simp only; omega)]
    rfl
  case isFalse => rw [pieces, List.flatMap_singleton]

theorem leftovers_rest (positive : 0 < size) (fits : size ≤ r.size) :
    leftovers size (Arena.rest r size) = leftovers size [r] := by
  rw [Arena.rest]
  split
  case isTrue exact => simp [leftovers, leftover, exact]
  case isFalse => simp only [leftovers, List.map_singleton, leftover_of_fits positive fits]

theorem pieces_of_split (positive : 0 < size) (short : ∀ f ∈ before, f.size < size)
    (fits : size ≤ r.size) :
    pieces size (before ++ r :: after) =
      r.start :: pieces size (before ++ Arena.rest r size ++ after) := by
  have none := (pieces_eq_nil_iff positive).2 short
  rw [List.append_cons, pieces_append, pieces_append, pieces_append, pieces_append, none,
    pieces_rest positive fits]
  rfl

theorem leftovers_of_split (positive : 0 < size) (fits : size ≤ r.size) :
    leftovers size (before ++ Arena.rest r size ++ after) =
      leftovers size (before ++ r :: after) := by
  rw [List.append_cons, leftovers_append, leftovers_append, leftovers_append, leftovers_append,
    leftovers_rest positive fits]

end Piece

section Units

theorem contains_of_mem_cuts (hu : u ∈ cuts size r) : r.Contains u := by
  obtain ⟨i, hi, rfl⟩ := List.mem_map.1 hu
  have room : (i + 1) * size ≤ r.size :=
    Nat.le_trans (Nat.mul_le_mul_right size (List.mem_range.1 hi)) (Nat.div_mul_le_self ..)
  have positive : 0 < size := Nat.pos_of_ne_zero fun none => by simp [none] at hi
  rw [Nat.succ_mul] at room
  simp only [Contains, stop]
  omega

theorem nodup_pieces (positive : 0 < size) (apart : free.Pairwise Apart) :
    (pieces size free).Nodup := by
  refine List.nodup_flatMap.2 ⟨fun r _ => ?_, apart.imp fun apart u inR inF => ?_⟩
  · refine List.nodup_range.map fun i j same => ?_
    exact Nat.eq_of_mul_eq_mul_right positive (Nat.add_left_cancel same)
  · have inR := contains_of_mem_cuts inR
    have inF := contains_of_mem_cuts inF
    simp only [Apart, Contains] at *
    omega

theorem mem_pieces_one : u ∈ pieces 1 free ↔ ∃ r ∈ free, r.Contains u := by
  refine List.mem_flatMap.trans (exists_congr fun r => and_congr_right fun _ => ?_)
  refine ⟨contains_of_mem_cuts, fun inside => ?_⟩
  simp only [Contains, stop] at inside
  refine List.mem_map.2 ⟨u - r.start, List.mem_range.2 ?_, ?_⟩
  · rw [Nat.div_one]
    omega
  · omega

theorem length_pieces_one : (pieces 1 free).length = total free := by
  simp only [length_pieces, Nat.div_one, total_eq_sum]

end Units

end Run

namespace Arena.Sound

variable {m : Arena} {size : Nat}

theorem perform_alloc_pieces (h : m.Sound) (positive : 0 < size) (inOrder : size ≤ Word.maxUnits) :
    ∃ m', m.perform (.alloc size) = some ((Run.pieces size m.free).head?, m') ∧ m'.Sound ∧
      Run.pieces size m'.free = (Run.pieces size m.free).tail ∧
      Run.leftovers size m'.free = Run.leftovers size m.free := by
  cases found : m.free.find? (fun r => size ≤ r.size) with
  | none =>
    have short : ∀ f ∈ m.free, f.size < size := by simpa using List.find?_eq_none.1 found
    have none := (Run.pieces_eq_nil_iff positive).2 short
    refine ⟨m, ?_, h, ?_, rfl⟩
    · rw [h.perform_alloc_of_short positive inOrder short, none, List.head?_nil]
    · rw [none, List.tail_nil]
  | some r =>
    obtain ⟨will, before, after, split, wont⟩ := List.find?_eq_some_iff_append.1 found
    have fits : size ≤ r.size := of_decide_eq_true will
    have short : ∀ f ∈ before, f.size < size := by simpa using wont
    have pieces : Run.pieces size m.free =
        r.start :: Run.pieces size (before ++ Arena.rest r size ++ after) := by
      rw [split]
      exact Run.pieces_of_split positive short fits
    refine ⟨m.carved before r after size, ?_, h.carve split positive fits, ?_, ?_⟩
    · rw [h.perform_alloc_of_split positive inOrder split short fits, pieces, List.head?_cons]
    · rw [pieces, List.tail_cons]
      rfl
    · rw [split]
      exact Run.leftovers_of_split positive fits

theorem performAll_alloc (h : m.Sound) (positive : 0 < size) (inOrder : size ≤ Word.maxUnits)
    (calls : Nat) :
    ∃ last, m.performAll (List.replicate calls (.alloc size)) =
        some ((List.range calls).map fun i => (Run.pieces size m.free)[i]?, last) ∧
      Run.pieces size last.free = (Run.pieces size m.free).drop calls ∧
      Run.leftovers size last.free = Run.leftovers size m.free := by
  induction calls generalizing m with
  | zero => exact ⟨m, rfl, rfl, rfl⟩
  | succ calls ih =>
    obtain ⟨next, done, sound, pieces, leftovers⟩ := h.perform_alloc_pieces positive inOrder
    obtain ⟨last, run, pieces', leftovers'⟩ := ih sound
    refine ⟨last, ?_, ?_, leftovers'.trans leftovers⟩
    · rw [List.replicate_succ, performAll, done]
      simp only [run, Option.map_some, List.range_succ_eq_map, List.map_cons, List.map_map,
        List.head?_eq_getElem?, pieces, List.getElem?_tail]
      rfl
    · rw [pieces', pieces, ← List.drop_one, List.drop_drop, Nat.add_comm]

end Arena.Sound

namespace Allocator

variable {a : Allocator} {m : Arena} {size units : Nat} {live : Ledger}

structure Enumerates (a : Allocator) (free : List Run) (piece : Nat) : Prop where
  answers : ∀ calls, (a.trail (List.replicate calls (.alloc piece))).map (·.answer) =
    (List.range calls).map fun i => .ok (Run.pieces piece free)[i]?
  successes : (Run.pieces piece free).length = (free.map fun r => r.size / piece).sum
  left : ∀ calls, (Run.pieces piece free).length ≤ calls →
    (a.performAll (List.replicate calls (.alloc piece))).freeRuns = .ok (Run.leftovers piece free)

structure EnumeratesUnits (a : Allocator) (free : List Run) : Prop extends a.Enumerates free 1 where
  count : a.freeUnits = .ok (Run.pieces 1 free).length
  once : (Run.pieces 1 free).Nodup
  every : ∀ u, u ∈ Run.pieces 1 free ↔ ∃ r ∈ free, r.Contains u

theorem enumerates_of_shows (h : a.table.Shows m) (positive : 0 < size)
    (inOrder : size ≤ Word.maxUnits) : a.Enumerates m.free size := by
  refine ⟨fun calls => ?_, Run.length_pieces, fun calls enough => ?_⟩
  · obtain ⟨last, run, -⟩ := h.sound.performAll_alloc positive inOrder calls
    rw [(trail_of_some h run).1, List.map_map]
    rfl
  · obtain ⟨last, run, pieces, leftovers⟩ := h.sound.performAll_alloc positive inOrder calls
    have shown := (trail_of_some h run).2
    rw [List.drop_eq_nil_of_le enough] at pieces
    -- no further piece fits, so what is on the list now is what is left over
    have short := (Run.pieces_eq_nil_iff positive).1 pieces
    have nonempty : ∀ f ∈ last.free, 0 < f.size := fun f hf =>
      shown.sound.partition.positive f (Arena.mem_runs_of_free hf)
    rw [freeRuns, shown.freeRuns_eq, ← leftovers, Run.leftovers_of_short nonempty short]

theorem enumeratesUnits_of_shows (h : a.table.Shows m) : a.EnumeratesUnits m.free where
  toEnumerates := enumerates_of_shows h Nat.one_pos (by decide)
  count := by rw [freeUnits_eq h, Run.length_pieces_one]
  once := Run.nodup_pieces Nat.one_pos (List.pairwise_append.1 h.sound.partition.apart).1
  every := fun _ => Run.mem_pieces_one

theorem enumerates_of_reaches (reached : Reaches units a live) :
    ∃ free, a.freeRuns = .ok free ∧
      (∀ size, 1 ≤ size → size ≤ Word.maxUnits → a.Enumerates free size) ∧
      a.EnumeratesUnits free := by
  obtain ⟨-, m, shows', -, -⟩ := reaches_shows reached
  exact ⟨m.free, shows'.freeRuns_eq,
    fun size positive inOrder => enumerates_of_shows shows' positive inOrder,
    enumeratesUnits_of_shows shows'⟩

def spaced : Allocator :=
  performAll ⟨Table.formatted 12⟩ ([1, 1, 1, 1, 3, 1].map .alloc ++ [0, 4, 2].map .free)

theorem enumerates_of_spaced : Reaches 12 spaced [⟨7, 1⟩, ⟨3, 1⟩, ⟨1, 1⟩] ∧
    spaced.freeRuns = .ok [⟨2, 1⟩, ⟨4, 3⟩, ⟨0, 1⟩, ⟨8, 4⟩] ∧
    spaced.Enumerates [⟨2, 1⟩, ⟨4, 3⟩, ⟨0, 1⟩, ⟨8, 4⟩] 2 ∧
    spaced.EnumeratesUnits [⟨2, 1⟩, ⟨4, 3⟩, ⟨0, 1⟩, ⟨8, 4⟩] ∧
    (spaced.trail (List.replicate 4 (.alloc 2))).map (·.answer) =
      [.ok (some 4), .ok (some 8), .ok (some 10), .ok none] ∧
    (spaced.performAll (List.replicate 4 (.alloc 2))).freeRuns =
      .ok [⟨2, 1⟩, ⟨6, 1⟩, ⟨0, 1⟩] := by
  have reached : Reaches 12 spaced [⟨7, 1⟩, ⟨3, 1⟩, ⟨1, 1⟩] :=
    reaches_of_ledger (by decide) _ (by decide +kernel)
  have listed : spaced.freeRuns = .ok [⟨2, 1⟩, ⟨4, 3⟩, ⟨0, 1⟩, ⟨8, 4⟩] := by decide +kernel
  obtain ⟨free, listed', enumerates, each⟩ := enumerates_of_reaches reached
  cases Except.ok.inj (listed.symm.trans listed')
  have pairs := enumerates 2 (by decide) (by decide)
  exact ⟨reached, listed, pairs, each, pairs.answers 4, pairs.left 4 (by decide)⟩

end Allocator

end FirstFit

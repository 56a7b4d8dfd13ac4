import FirstFit.Proofs.Frames
import FirstFit.Proofs.Taking

namespace FirstFit

namespace Table

theorem remainder_remainder {r : Run} {first second : Nat} :
    remainder (remainder r first) second = remainder r (first + second) := by
  simp only [remainder, Nat.add_assoc, Nat.sub_sub]

theorem le_size_remainder {r : Run} {first second : Nat} (fits : first + second ≤ r.size) :
    second ≤ (remainder r first).size := by
  simp only [remainder]
  omega

theorem word_retagged_retagged {s t : Table} {x y : Run} {v : Int} (units : t.units = s.units)
    (inside : x.stop ≤ s.units) (start : x.start < y.start) (stop : y.stop = x.stop)
    (low : y.start < v) (high : v < y.stop)
    (written : t.word v = (s.retagged x.start x.size true).word v) :
    (t.retagged y.start y.size true).word v = (s.retagged y.start y.size true).word v := by
  rw [word_retagged_inside low high (by omega), word_retagged_inside low high (by omega)]
  split
  case isTrue => rfl
  case isFalse last =>
    split
    case isTrue => rfl
    case isFalse =>
      rw [written, word_retagged_inside (by omega) (by omega) inside, if_neg (by omega),
        if_neg (by omega)]

namespace Shows

variable {t : Table} {m : Arena} {r : Run} {size first second : Nat} {before after : List Run}
  {v : Int}

theorem word_taken_rest (h : t.Shows m) (split : m.free = before ++ r :: after) (positive : 0 < size)
    (low : (remainder r size).start < v) (high : v < r.stop) :
    (t.taken (Run.starts before) (Run.starts after) r size).word v =
      (t.retagged (remainder r size).start (remainder r size).size true).word v := by
  have marked := h.free r (by simp [split])
  have bounds := marked.bounds
  have hv : t.Covers v := ⟨by omega, by omega⟩
  have start : ((remainder r size).start : Int) = r.start + size := by simp [remainder]
  have less : size < r.size := by omega
  have frontStop : (Run.stop ⟨r.start, size⟩ : Int) = r.start + size := Run.cast_stop _
  have links := (h.chain_of_split split).relinked_restLeft h.small marked.inside less
  rw [taken, if_pos less, word_retagged_of_ne (x := ⟨r.start, size⟩) positive
    (by simp only [units_restLeft]; omega) (by simpa [Covers] using hv) (by simp only; omega)
    (by simp only; omega) (by omega)]
  refine links.words v (by simpa using hv) ?_
  rintro (atStart | around)
  · omega
  · have beyond := h.beyond_of_around split around
    simp only [Run.Beyond] at beyond
    omega

theorem split_rest (h : t.Shows m) (split : m.free = before ++ r :: after) (positive : 0 < first)
    (less : first < r.size) :
    (t.taken (Run.starts before) (Run.starts after) r first).Shows
        (m.carved before r after first) ∧
      (m.carved before r after first).free = before ++ remainder r first :: after := by
  have left : Arena.rest r first = [remainder r first] := if_neg (by omega)
  refine ⟨(h.carve split positive (Nat.le_of_lt less)).2, ?_⟩
  rw [Arena.carved, left, List.append_assoc, List.singleton_append]

theorem word_taken_taken_beyond (h : t.Shows m) (split : m.free = before ++ r :: after)
    (firstPositive : 0 < first) (secondPositive : 0 < second) (fits : first + second ≤ r.size)
    (hv : t.Covers v) (beyond : r.Beyond v) (above : v ≠ (Run.starts before).getLastD head)
    (below : v ≠ (Run.starts after).headD head) :
    ((t.taken (Run.starts before) (Run.starts after) r first).taken (Run.starts before)
        (Run.starts after) (remainder r first) second).word v =
      (t.taken (Run.starts before) (Run.starts after) r (first + second)).word v := by
  have less : first < r.size := by omega
  obtain ⟨h₁, split₁⟩ := h.split_rest split firstPositive less
  have one := h.rewired_taken split firstPositive (Nat.le_of_lt less)
  have two := (h₁.rewired_taken split₁ secondPositive (le_size_remainder fits)).mono
    (remainder_within r less) (fun _ => id) (fun _ => id)
  have both := h.rewired_taken split (by omega : 0 < first + second) fits
  rw [(one.trans two).word_eq hv beyond above below, both.word_eq hv beyond above below]

theorem word_taken_taken_rest (h : t.Shows m) (split : m.free = before ++ r :: after)
    (firstPositive : 0 < first) (secondPositive : 0 < second) (fits : first + second ≤ r.size)
    (low : (remainder r (first + second)).start < v) (high : v < r.stop) :
    ((t.taken (Run.starts before) (Run.starts after) r first).taken (Run.starts before)
        (Run.starts after) (remainder r first) second).word v =
      (t.taken (Run.starts before) (Run.starts after) r (first + second)).word v := by
  have less : first < r.size := by omega
  obtain ⟨h₁, split₁⟩ := h.split_rest split firstPositive less
  have inside := (h.free r (by simp [split])).inside
  have firstStop := stop_remainder (Nat.le_of_lt less)
  have bothStop := stop_remainder fits
  have inward : (remainder r first).start < (remainder r (first + second)).start := by
    simp only [remainder]
    omega
  calc
    _ = ((t.taken (Run.starts before) (Run.starts after) r first).retagged
          (remainder r (first + second)).start (remainder r (first + second)).size true).word v := by
      rw [← remainder_remainder] at low ⊢
      exact h₁.word_taken_rest split₁ secondPositive low (by omega)
    _ = (t.retagged (remainder r (first + second)).start (remainder r (first + second)).size
          true).word v :=
      word_retagged_retagged (units_taken ..) (by omega) inward (by omega) low (by omega)
        (h.word_taken_rest split firstPositive (by omega) high)
    _ = _ := (h.word_taken_rest split (by omega) low high).symm

theorem word_taken_taken (h : t.Shows m) (split : m.free = before ++ r :: after)
    (firstPositive : 0 < first) (secondPositive : 0 < second) (fits : first + second ≤ r.size)
    (hv : t.Covers v) (outside : v < r.start ∨ r.start + first + second ≤ v) :
    ((t.taken (Run.starts before) (Run.starts after) r first).taken (Run.starts before)
        (Run.starts after) (remainder r first) second).word v =
      (t.taken (Run.starts before) (Run.starts after) r (first + second)).word v := by
  obtain ⟨h₁, split₁⟩ := h.split_rest split firstPositive (by omega)
  have twice := (h₁.carve split₁ secondPositive (le_size_remainder fits)).2
  have once := (h.carve split (by omega) fits).2
  have same : ((m.carved before r after first).carved before (remainder r first) after second).free =
      (m.carved before r after (first + second)).free :=
    congrArg (fun left => before ++ left ++ after) (Arena.rest_rest fits)
  -- the words of the list are known from the arena, and both tables show the same list
  by_cases listed : v ∈ head :: Run.starts (m.carved before r after (first + second)).free
  · exact twice.word_eq once same (same ▸ listed)
  by_cases beyond : r.Beyond v
  · have neighbour {w : Int} (hw : w ∈ head :: (Run.starts before ++ Run.starts after)) : v ≠ w := by
      rintro rfl
      apply listed
      simp only [Arena.carved, Run.starts_append, List.mem_cons, List.mem_append] at hw ⊢
      exact hw.imp_right (Or.imp_left Or.inl)
    exact h.word_taken_taken_beyond split firstPositive secondPositive fits hv beyond
      (neighbour (Chain.getLastD_mem _ _)) (neighbour (Chain.headD_mem _ _))
  · simp only [Run.Beyond, not_or, Int.not_lt, Int.not_le] at beyond
    have start : ((remainder r (first + second)).start : Int) = r.start + first + second := by
      simp only [remainder]
      omega
    have notStart : v ≠ (remainder r (first + second)).start := by
      rintro rfl
      apply listed
      have left : Arena.rest r (first + second) = [remainder r (first + second)] :=
        if_neg (by simp only [Run.stop] at beyond; omega)
      rw [Arena.carved, left]
      simp
    exact h.word_taken_taken_rest split firstPositive secondPositive fits (by omega) beyond.2

end Shows

end Table

namespace Allocator

variable {a : Allocator} {m : Arena} {r : Run} {first second : Nat} {before after : List Run}

def allocAtTwice (a : Allocator) (first second unit : Nat) : Outcome (Option Nat) :=
  (a.allocAt first unit).after.allocAt second (unit + first)

structure Composes (a : Allocator) (r : Run) (first second : Nat) : Prop where
  front : (a.allocAt first r.start).answer = .ok (some r.start)
  behind : (a.allocAtTwice first second r.start).answer = .ok (some (r.start + first))
  once : (a.allocAt (first + second) r.start).answer = .ok (some r.start)
  units : (a.allocAtTwice first second r.start).after.units =
    (a.allocAt (first + second) r.start).after.units
  free : ∃ left, (a.allocAtTwice first second r.start).after.freeRuns = .ok left ∧
    (a.allocAt (first + second) r.start).after.freeRuns = .ok left
  words : ∀ v, a.table.Covers v → v < r.start ∨ r.start + first + second ≤ v →
    (a.allocAtTwice first second r.start).after.table.word v =
      (a.allocAt (first + second) r.start).after.table.word v

theorem allocAtTwice_of_split (h : a.table.Shows m) (split : m.free = before ++ r :: after)
    (firstPositive : 0 < first) (secondPositive : 0 < second) (fits : first + second ≤ r.size) :
    a.allocAtTwice first second r.start =
      ⟨.ok (some (r.start + first)),
        ⟨(a.table.taken (Run.starts before) (Run.starts after) r first).taken (Run.starts before)
          (Run.starts after) (Table.remainder r first) second⟩,
        some (.placed ⟨r.start + first, second⟩)⟩ := by
  obtain ⟨h₁, split₁⟩ := h.split_rest split firstPositive (by omega)
  rw [allocAtTwice, allocAt_of_split h split firstPositive (by omega)]
  exact allocAt_of_split (a := ⟨a.table.taken (Run.starts before) (Run.starts after) r first⟩) h₁
    split₁ secondPositive (Table.le_size_remainder fits)

theorem composes_of_shows (h : a.table.Shows m) (split : m.free = before ++ r :: after)
    (firstPositive : 0 < first) (secondPositive : 0 < second) (fits : first + second ≤ r.size) :
    a.Composes r first second := by
  have positive : 0 < first + second := by omega
  have front := allocAt_of_split h split firstPositive (by omega)
  have twice := allocAtTwice_of_split h split firstPositive secondPositive fits
  have once := allocAt_of_split h split positive fits
  obtain ⟨h₁, split₁⟩ := h.split_rest split firstPositive (by omega)
  have left := (h₁.carve split₁ secondPositive (Table.le_size_remainder fits)).2.freeRuns_eq
  have leftOnce := (h.carve split positive fits).2.freeRuns_eq
  have same : (m.carved before r after (first + second)).free =
      ((m.carved before r after first).carved before (Table.remainder r first) after second).free :=
    congrArg (fun left => before ++ left ++ after) (Arena.rest_rest fits).symm
  refine ⟨by rw [front], by rw [twice], by rw [once], ?_, ?_, fun v hv outside => ?_⟩
  · rw [twice, once]
    simp [Allocator.units]
  · rw [twice, once]
    exact ⟨_, left, leftOnce.trans (congrArg Except.ok same)⟩
  · rw [twice, once]
    exact h.word_taken_taken split firstPositive secondPositive fits hv outside

theorem composes_of_reaches {units : Nat} {live : Ledger} (reached : Reaches units a live)
    {free : List Run} (listed : a.freeRuns = .ok free) (hr : r ∈ free) (firstPositive : 0 < first)
    (secondPositive : 0 < second) (fits : first + second ≤ r.size) : a.Composes r first second := by
  obtain ⟨-, m, shows', -, -⟩ := reaches_shows reached
  cases listed.symm.trans shows'.freeRuns_eq
  obtain ⟨before, after, split⟩ := List.append_of_mem hr
  exact composes_of_shows shows' split firstPositive secondPositive fits

theorem composes_of_scattered : Reaches 10 scattered [⟨7, 1⟩, ⟨3, 1⟩, ⟨1, 2⟩] ∧
    scattered.freeRuns = .ok [⟨0, 1⟩, ⟨4, 3⟩, ⟨8, 2⟩] ∧
    scattered.Composes ⟨4, 3⟩ 1 1 ∧ scattered.Composes ⟨4, 3⟩ 1 2 ∧
    Table.changed (scattered.allocAtTwice 1 1 4).after.table (scattered.allocAt 2 4).after.table =
      [4, 5] := by
  have middle : (⟨4, 3⟩ : Run) ∈ [(⟨0, 1⟩ : Run), ⟨4, 3⟩, ⟨8, 2⟩] := by decide
  refine ⟨reaches_scattered, freeRuns_scattered, ?_, ?_, by decide +kernel⟩
  · exact composes_of_reaches reaches_scattered freeRuns_scattered middle (by decide) (by decide)
      (by decide)
  · exact composes_of_reaches reaches_scattered freeRuns_scattered middle (by decide) (by decide)
      (by decide)

end Allocator

end FirstFit

import FirstFit.Proofs.Histories
import Mathlib.Data.List.Basic

namespace FirstFit

def Call.Takes (call : Call) (x : Run) : Prop := call = .alloc x.size ∨ call = .allocAt x.size x.start

theorem find?_middle {α : Type} {p : α → Bool} {before taken after : List α}
    (inside : ∀ a ∈ taken, p a = true) (outside : ∀ b ∈ before ++ after, p b = false) :
    (before ++ taken ++ after).find? p = taken.head? := by
  have none (xs : List α) (sub : ∀ b ∈ xs, b ∈ before ++ after) : xs.find? p = none := by
    rw [List.find?_eq_none]
    intro b hb
    simp [outside b (sub b hb)]
  have found : taken.find? p = taken.head? := by
    cases taken with
    | nil => rfl
    | cons a rest => rw [List.find?_cons, inside a List.mem_cons_self, List.head?_cons]
  rw [List.find?_append, List.find?_append, found,
    none before fun b hb => List.mem_append_left _ hb,
    none after fun b hb => List.mem_append_right _ hb, Option.none_or, Option.or_none]

namespace Arena

variable {m m' : Arena} {r : Run} {call : Call} {size unit : Nat} {willDo : Run → Bool}
  {before after : List Run}

section Take

theorem take_eq_some (h : m.take willDo size = (some unit, m')) :
    ∃ before r after, m.free = before ++ r :: after ∧ willDo r = true ∧
      (∀ f ∈ before, (!willDo f) = true) ∧ r.start = unit ∧ m' = m.carved before r after size := by
  cases found : m.free.find? willDo with
  | none =>
    rw [take_of_none found] at h
    cases h
  | some r =>
    obtain ⟨will, before, after, split, wont⟩ := List.find?_eq_some_iff_append.1 found
    rw [take_of_split split will wont] at h
    cases h
    exact ⟨before, r, after, split, will, wont, rfl, rfl⟩

theorem take_of_alloc (taken : m.perform (.alloc size) = some (some unit, m')) :
    0 < size ∧ m.take (fun r => size ≤ r.size) size = (some unit, m') := by
  rw [perform] at taken
  split at taken
  case isTrue => cases taken
  rw [alloc] at taken
  split at taken
  case isTrue => cases taken
  exact ⟨by omega, Option.some.inj taken⟩

theorem take_of_allocAt {start : Nat}
    (taken : m.perform (.allocAt size start) = some (some unit, m')) :
    0 < size ∧ m.take (fun r => r.start = start ∧ size ≤ r.size) size = (some unit, m') := by
  rw [perform] at taken
  split at taken
  case isTrue => cases taken
  rw [allocAt] at taken
  split at taken
  case isTrue => cases taken
  exact ⟨by omega, Option.some.inj taken⟩

theorem take_of_takes {x : Run} (takes : call.Takes x)
    (taken : m.perform call = some (some unit, m')) :
    0 < x.size ∧ ∃ willDo, (∀ f, willDo f = true → x.size ≤ f.size) ∧
      m.take willDo x.size = (some unit, m') := by
  rcases takes with rfl | rfl
  · obtain ⟨positive, take⟩ := take_of_alloc taken
    exact ⟨positive, _, fun f will => of_decide_eq_true will, take⟩
  · obtain ⟨positive, take⟩ := take_of_allocAt taken
    exact ⟨positive, _, fun f will => (of_decide_eq_true will).2, take⟩

theorem rest_rest {a b : Nat} (fits : a + b ≤ r.size) :
    rest ⟨r.start + a, r.size - a⟩ b = rest r (a + b) := by
  by_cases exact : r.size = a + b
  · rw [rest, rest, if_pos exact, if_pos (by simp only; omega)]
  · rw [rest, rest, if_neg exact, if_neg (by simp only; omega), Nat.add_assoc, Nat.sub_sub]

namespace Sound

theorem split_unique {before' after' : List Run} {r' : Run} (h : m.Sound)
    (split : m.free = before ++ r :: after) (split' : m.free = before' ++ r' :: after')
    (start : r'.start = r.start) : before' = before ∧ r' = r ∧ after' = after := by
  have rFree : r ∈ m.free := by simp [split]
  have rFree' : r' ∈ m.free := by simp [split']
  have same : r' = r :=
    h.partition.eq_of_start (mem_runs_of_free rFree') (mem_runs_of_free rFree) start
  have nodup := h.nodup_free
  rw [split'] at nodup
  have fresh : r' ∉ before' ++ after' := (List.nodup_cons.1 (List.perm_middle.nodup nodup)).1
  rw [List.mem_append, not_or] at fresh
  rw [same] at fresh split'
  rw [split] at split'
  obtain ⟨eqBefore, -, eqAfter⟩ := (List.append_cons_inj_of_notMem fresh.1 fresh.2).1 split'.symm
  exact ⟨eqBefore, same, eqAfter⟩

theorem carved_of_takes (h : m.Sound) (split : m.free = before ++ r :: after)
    (takes : call.Takes ⟨r.start, size⟩) (taken : m.perform call = some (some r.start, m')) :
    0 < size ∧ size ≤ r.size ∧ m' = m.carved before r after size := by
  obtain ⟨positive, willDo, fitting, take⟩ := take_of_takes takes taken
  obtain ⟨before', r', after', split', will, -, start, eq⟩ := take_eq_some take
  have fits := fitting r' will
  obtain ⟨rfl, rfl, rfl⟩ := h.split_unique split split' start
  exact ⟨positive, fits, eq⟩

theorem size_le_units (h : m.Sound) (hr : r ∈ m.runs) : r.size ≤ m.units := by
  have fits := h.partition.below r hr
  unfold Run.stop at fits
  omega

theorem perform_alloc (h : m.Sound) (positive : 0 < size) (inOrder : size ≤ Word.maxUnits) :
    m.perform (.alloc size) = some (m.take (fun r => size ≤ r.size) size) := by
  rw [perform, if_neg (Nat.not_lt.2 inOrder), alloc]
  by_cases large : size > m.units
  · have short : m.free.find? (fun r => size ≤ r.size) = none := by
      refine List.find?_eq_none.2 fun f hf => ?_
      have := h.size_le_units (mem_runs_of_free hf)
      simp only [decide_eq_true_eq]
      omega
    rw [if_pos (Or.inr large), take_of_none short]
  · rw [if_neg (by omega)]

theorem perform_alloc_of_short (h : m.Sound) (positive : 0 < size)
    (inOrder : size ≤ Word.maxUnits) (short : ∀ f ∈ m.free, f.size < size) :
    m.perform (.alloc size) = some (none, m) := by
  have none : m.free.find? (fun r => size ≤ r.size) = none := by
    refine List.find?_eq_none.2 fun f hf => ?_
    simpa using short f hf
  rw [h.perform_alloc positive inOrder, take_of_none none]

theorem perform_alloc_of_split (h : m.Sound) (positive : 0 < size)
    (inOrder : size ≤ Word.maxUnits) (split : m.free = before ++ r :: after)
    (short : ∀ f ∈ before, f.size < size) (fits : size ≤ r.size) :
    m.perform (.alloc size) = some (some r.start, m.carved before r after size) := by
  have wont : ∀ f ∈ before, (!decide (size ≤ f.size)) = true := fun f hf => by
    simpa using short f hf
  rw [h.perform_alloc positive inOrder, take_of_split split (decide_eq_true fits) wont]

theorem perform_allocAt_of_split (h : m.Sound) (small : m.units ≤ Word.maxUnits)
    (positive : 0 < size) (split : m.free = before ++ r :: after) (fits : size ≤ r.size) :
    m.perform (.allocAt size r.start) = some (some r.start, m.carved before r after size) := by
  have rFree : r ∈ m.free := by simp [split]
  have rIn := mem_runs_of_free rFree
  have sizeIn := h.size_le_units rIn
  have startIn := h.unit_lt rIn
  have starts : m.startsRun r.start = true := startsRun_iff.2 ⟨r, rIn, rfl⟩
  have inOrder : ¬ (size > Word.maxUnits ∨
      0 < size ∧ size ≤ m.units ∧ r.start < m.units ∧ ¬ m.startsRun r.start) := by
    rintro (large | ⟨-, -, -, nothing⟩)
    · omega
    · exact nothing starts
  have never : ¬ (size = 0 ∨ size > m.units ∨ r.start ≥ m.units) := by omega
  have will : decide (r.start = r.start ∧ size ≤ r.size) = true := by simp [fits]
  have wont : ∀ f ∈ before, (!decide (f.start = r.start ∧ size ≤ f.size)) = true := by
    intro f hf
    obtain ⟨fIn, apart⟩ := h.apart_of_split split (List.mem_append_left _ (List.mem_append_left _ hf))
    have := h.partition.start_lt_stop fIn
    have := h.partition.start_lt_stop rIn
    have other : f.start ≠ r.start := by
      simp only [Run.Apart] at apart
      omega
    simp [other]
  rw [perform, if_neg inOrder, allocAt, if_neg never, take_of_split split will wont]

theorem perform_takes_head (h : m.Sound) (small : m.units ≤ Word.maxUnits) {others : List Run}
    (list : m.free = r :: others) (positive : 0 < size) (fits : size ≤ r.size)
    (takes : call.Takes ⟨r.start, size⟩) :
    m.perform call = some (some r.start, m.carved [] r others size) := by
  have rFree : r ∈ m.free := by simp [list]
  have sizeIn := h.size_le_units (mem_runs_of_free rFree)
  have inOrder : size ≤ Word.maxUnits := by omega
  rcases takes with rfl | rfl
  · exact h.perform_alloc_of_split positive inOrder list (by simp) fits
  · exact h.perform_allocAt_of_split small positive list fits

end Sound

end Take

section Release

theorem free_release (m : Arena) (r : Run) :
    (m.release r).2.free = (m.release r).1 :: m.freeApart r := by
  rw [release_eq]

theorem mem_free_release (m : Arena) (r : Run) : (m.release r).1 ∈ (m.release r).2.free := by
  rw [free_release]
  exact List.mem_cons_self

theorem mem_free_of_freeApart {f : Run} (hf : f ∈ m.freeApart r) : f ∈ m.free :=
  (List.mem_filter.1 (List.mem_filter.1 hf).1).1

theorem within_release (m : Arena) (r : Run) : r.Within (m.release r).1 := by
  rw [release_eq]
  constructor
  · cases found : m.above r with
    | none => exact Nat.le_refl _
    | some f =>
      have meet := stop_of_above found
      simp only [join, Run.stop, Option.map_some, Option.getD_some] at *
      omega
  · rw [stop_join]
    cases found : m.below r with
    | none => exact Nat.le_refl _
    | some f =>
      have meet := start_of_below found
      simp only [Run.stop, Option.map_some, Option.getD_some] at *
      omega

theorem start_release_of_none (none : m.above r = none) : (m.release r).1.start = r.start := by
  rw [release_eq, none]
  rfl

theorem release_alone (apart : ∀ f ∈ m.free, f.stop ≠ r.start ∧ f.start ≠ r.stop) :
    m.release r =
      (r, { m with free := r :: m.free, used := m.used.filter (·.start ≠ r.start) }) := by
  have none : m.above r = none :=
    List.find?_eq_none.2 fun f hf => by simpa using (apart f hf).1
  have none' : m.below r = .none :=
    List.find?_eq_none.2 fun f hf => by simpa using (apart f hf).2
  have keep : m.freeApart r = m.free := by
    rw [← freeApart_eq, List.filter_eq_self]
    intro f hf
    exact decide_eq_true (apart f hf)
  have alone : join r .none .none = r := by simp [join]
  rw [release_eq, none, none', keep, alone]

theorem join_rest (fits : size ≤ r.size) : join ⟨r.start, size⟩ none (rest r size).head? = r := by
  rw [rest]
  split
  case isTrue exact => simp [join, ← exact]
  case isFalse => simp [join, Nat.add_sub_cancel' fits]

theorem start_of_mem_rest {f : Run} (positive : 0 < size) (hf : f ∈ rest r size) :
    f.start = r.start + size ∧ f.stop ≠ r.start := by
  rw [rest] at hf
  split at hf
  case isTrue => cases hf
  case isFalse =>
    rw [List.mem_singleton] at hf
    rw [hf]
    exact ⟨rfl, by simp only [Run.stop]; omega⟩

theorem Sound.untouched {f : Run} (h : m.Sound) (split : m.free = before ++ r :: after)
    (hf : f ∈ before ++ after) :
    f ∈ m.free ∧ f.stop ≠ r.start ∧ ∀ u, r.start ≤ u → u ≤ r.stop → f.start ≠ u := by
  have rFree : r ∈ m.free := by simp [split]
  have fFree : f ∈ m.free := by
    rw [split]
    exact List.perm_middle.mem_iff.2 (List.mem_cons_of_mem _ hf)
  obtain ⟨fIn, apart⟩ := h.apart_of_split split (List.mem_append_left _ hf)
  have size := h.partition.start_lt_stop fIn
  have meet := h.spread r rFree f fFree
  refine ⟨fFree, h.spread f fFree r rFree, fun u low high start => ?_⟩
  simp only [Run.Apart] at apart
  omega

theorem release_carved (h : m.Sound) (split : m.free = before ++ r :: after) (positive : 0 < size)
    (fits : size ≤ r.size) :
    (m.carved before r after size).release ⟨r.start, size⟩ =
      (r, { m with free := r :: (before ++ after) }) := by
  have rFree : r ∈ m.free := by simp [split]
  have noneAbove : ∀ f ∈ (m.carved before r after size).free, f.stop ≠ r.start := by
    intro f hf
    simp only [carved, List.mem_append] at hf
    rcases hf with (hf | hf) | hf
    · exact (h.untouched split (List.mem_append_left _ hf)).2.1
    · exact (start_of_mem_rest positive hf).2
    · exact (h.untouched split (List.mem_append_right _ hf)).2.1
  have above : (m.carved before r after size).above ⟨r.start, size⟩ = none :=
    List.find?_eq_none.2 fun f hf => by simpa using noneAbove f hf
  have beside : (m.carved before r after size).freeBesideAbove ⟨r.start, size⟩ =
      before ++ rest r size ++ after :=
    List.filter_eq_self.2 fun f hf => by simpa using noneAbove f hf
  have outside : ∀ f ∈ before ++ after, decide (f.start = r.start + size) = false := fun f hf =>
    decide_eq_false ((h.untouched split hf).2.2 _ (Nat.le_add_right ..) (Nat.add_le_add_left fits _))
  have inside : ∀ f ∈ rest r size, decide (f.start = r.start + size) = true := fun f hf =>
    decide_eq_true (start_of_mem_rest positive hf).1
  have below : (m.carved before r after size).below ⟨r.start, size⟩ = (rest r size).head? :=
    find?_middle inside outside
  have apart : (m.carved before r after size).freeApart ⟨r.start, size⟩ = before ++ after := by
    rw [freeApart, beside]
    exact filter_not_middle inside outside
  have used : (m.carved before r after size).used.filter (·.start ≠ r.start) = m.used := by
    rw [carved, List.filter_cons_of_neg (by simp), List.filter_eq_self]
    exact fun x hx => by simpa using h.no_used_start rFree x hx
  rw [release_eq, above, below, apart, join_rest fits, used]
  rfl

end Release

end Arena

namespace Allocator

variable {a : Allocator} {m m' : Arena} {r : Run} {call : Call} {answer : Option Nat}

theorem perform_of_arena (h : a.table.Shows m) (done : m.perform call = some (answer, m')) :
    (a.perform call).answer = .ok answer ∧ (a.perform call).after.table.Shows m' := by
  rcases perform_lockstep h call with ⟨arena, -⟩ | ⟨_, _, arena, answered, shows'⟩
  · rw [done] at arena
    cases arena
  · rw [done] at arena
    cases arena
    exact ⟨answered, shows'⟩

theorem arena_of_perform (h : a.table.Shows m) (answered : (a.perform call).answer = .ok answer) :
    ∃ m', m.perform call = some (answer, m') ∧ (a.perform call).after.table.Shows m' := by
  rcases perform_lockstep h call with ⟨-, fault, refused⟩ | ⟨other, m', arena, same, shows'⟩
  · rw [refused] at answered
    cases answered
  · rw [same] at answered
    cases answered
    exact ⟨m', arena, shows'⟩

end Allocator

end FirstFit

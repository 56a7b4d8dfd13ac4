import FirstFit.Proofs.Frames
import FirstFit.Proofs.Independence
import FirstFit.Proofs.Taking

namespace FirstFit

namespace Table

structure TakesWithin (s t : Table) (r : Run) (size : Nat) (p q : Int) : Prop where
  above : s.prev r.start = .ok p
  below : s.next r.start = .ok q
  few : (changed s t).length ≤ 8
  inside : ∀ v ∈ changed s t, r.start ≤ v → v < r.stop → v ∈ r.seams size
  outside : Rewired r (· = p) (· = q) s t

structure ReleasesWithin (s t : Table) (whole : Run) (others : List Run) : Prop where
  few : (changed s t).length ≤ 9
  outside : Rewired whole (· ∈ head :: Run.starts others) (· ∈ head :: Run.starts others) s t

namespace Shows

variable {t : Table} {m : Arena} {r f : Run} {size : Nat} {before after : List Run} {v : Int}

theorem takesWithin (h : t.Shows m) (split : m.free = before ++ r :: after) (positive : 0 < size)
    (fits : size ≤ r.size) :
    TakesWithin t (t.taken (Run.starts before) (Run.starts after) r size) r size
      ((Run.starts before).getLastD head) ((Run.starts after).headD head) where
  above := (h.chain_of_split split).prev_eq
  below := (h.chain_of_split split).next_eq
  few := length_changed_le (_ :: _ :: r.seams size) (h.word_taken_of_not_mem split positive)
  inside := by
    intro v hv low high
    have outside {w : Int} (hw : w ∈ head :: (Run.starts before ++ Run.starts after)) : v ≠ w := by
      have beyond := h.beyond_of_around split hw
      simp only [Run.Beyond] at beyond
      omega
    have among := mem_of_changed hv (h.word_taken_of_not_mem split positive)
    rw [List.mem_cons, List.mem_cons] at among
    rcases among with atAbove | atBelow | seam
    · exact absurd atAbove (outside (Chain.getLastD_mem _ _))
    · exact absurd atBelow (outside (Chain.headD_mem _ _))
    · exact seam
  outside := h.rewired_taken split positive fits

theorem releasesWithin (h : t.Shows m) (hr : r ∈ m.used) :
    ∃ t', merge r.start t = .ok ⟨r, (m.release r).1⟩ t' ∧ t'.Shows (m.release r).2 ∧
      ReleasesWithin t t' (m.release r).1 (m.freeApart r) := by
  obtain ⟨t₁, t₂, first, second, merges, shows'⟩ := h.merge_eq hr
  exact ⟨_, merges, shows', h.length_changed_released hr first second,
    h.rewired_released hr first second⟩

end Shows

structure Local (m m' : Arena) (x : Run) (s t : Table) : Prop where
  inside : x.stop ≤ m.units
  used : ∀ f ∈ m.used, f ∈ m'.used → f.Apart x
  free : ∀ f ∈ m.free, f ∈ m'.free → f.Apart x
  outside : Rewired x (· ∈ head :: Run.starts m.free) (· ∈ head :: Run.starts m.free) s t

namespace Shows

variable {s t : Table} {m m' : Arena} {x r f : Run} {size : Nat} {before after : List Run} {v : Int}

theorem not_stop_inside (h : s.Shows m) (hf : f ∈ m.runs) (low : f.start < v) (high : v < f.stop) :
    v ∉ head :: Run.starts m.free := by
  intro hv
  have clear := clear_of_sound h.sound hv hf
  simp only [Run.Clear] at clear
  omega

theorem not_stop_used (h : s.Shows m) (hf : f ∈ m.used) :
    (f.start : Int) ∉ head :: Run.starts m.free := by
  intro hv
  rcases List.mem_cons.1 hv with top | hv
  · exact start_ne_head f top
  · obtain ⟨g, hg, start⟩ := Run.mem_starts.1 hv
    exact h.sound.no_used_start hg f hf (by omega)

theorem not_stop_units (h : s.Shows m) : (s.units : Int) ∉ head :: Run.starts m.free := by
  intro hv
  rcases List.mem_cons.1 hv with top | hv
  · rw [head_eq] at top
    omega
  · have := h.chain.inside _ hv
    omega

theorem word_used (h : s.Shows m) (near : Local m m' x s t) (hf : f ∈ m.used) (hf' : f ∈ m'.used)
    (low : f.start ≤ v) (high : v < f.stop) : t.word v = s.word v := by
  have bounds := (h.used f hf).bounds
  have beyond : x.Beyond v := by
    have apart := near.used f hf hf'
    simp only [Run.Apart, Run.Beyond] at *
    omega
  have out : v ∉ head :: Run.starts m.free := by
    by_cases start : v = f.start
    · rw [start]
      exact h.not_stop_used hf
    · exact h.not_stop_inside (Arena.mem_runs_of_used hf) (by omega) high
  exact near.outside.word_eq ⟨by omega, by omega⟩ beyond out out

theorem words_free (h : s.Shows m) (near : Local m m' x s t) (hf : f ∈ m.free)
    (hf' : f ∈ m'.free) :
    SameMarks (t.word f.start) (s.word f.start) ∧
      ∀ v : Int, f.start < v → v < f.stop → t.word v = s.word v := by
  have bounds := (h.free f hf).bounds
  have beyond {v : Int} (low : f.start ≤ v) (high : v < f.stop) : x.Beyond v := by
    have apart := near.free f hf hf'
    simp only [Run.Apart, Run.Beyond] at *
    omega
  refine ⟨near.outside.marks _ ⟨by omega, by omega⟩ (beyond (Int.le_refl _) (by omega)), ?_⟩
  intro v low high
  have out := h.not_stop_inside (Arena.mem_runs_of_free hf) low high
  exact near.outside.word_eq ⟨by omega, by omega⟩ (beyond (by omega) high) out out

theorem word_bottom (h : s.Shows m) (near : Local m m' x s t) :
    t.word s.units = s.word s.units := by
  have beyond : x.Beyond s.units := by
    have inside := near.inside
    have units := h.units
    simp only [Run.Beyond]
    omega
  exact near.outside.word_eq s.covers_units beyond h.not_stop_units h.not_stop_units

theorem local_refl (m m' : Arena) (s : Table) : Local m m' ⟨0, 0⟩ s s where
  inside := Nat.zero_le _
  used := fun _ _ _ => Or.inr (Nat.zero_le _)
  free := fun _ _ _ => Or.inr (Nat.zero_le _)
  outside := .of_words rfl fun _ _ _ => rfl

theorem local_taken (h : s.Shows m) (split : m.free = before ++ r :: after) (positive : 0 < size)
    (fits : size ≤ r.size) :
    Local m (m.carved before r after size) r s
      (s.taken (Run.starts before) (Run.starts after) r size) where
  inside := h.sound.partition.below r (Arena.mem_runs_of_free (by simp [split]))
  used := fun f hf _ => (h.sound.apart_of_split split (List.mem_append_right _ hf)).2
  free := by
    intro f hf hf'
    have rFree : r ∈ m.free := by simp [split]
    have ne : f ≠ r := by
      rintro rfl
      have sound := h.sound.carve split positive fits
      exact sound.no_used_start hf' ⟨f.start, size⟩ List.mem_cons_self rfl
    exact h.sound.partition.apart_of_ne (Arena.mem_runs_of_free hf) (Arena.mem_runs_of_free rFree) ne
  outside := by
    have listed {w : Int} (hw : w ∈ head :: (Run.starts before ++ Run.starts after)) :
        w ∈ head :: Run.starts m.free := by
      rw [split, Run.starts_append, Run.starts_cons]
      exact Chain.mem_around.2 (Or.inr hw)
    refine (h.rewired_taken split positive fits).mono r.within_refl ?_ ?_
    · rintro v rfl
      exact listed (Chain.getLastD_mem _ _)
    · rintro v rfl
      exact listed (Chain.headD_mem _ _)

theorem local_released (h : s.Shows m) (hr : r ∈ m.used)
    (within : ReleasesWithin s t (m.release r).1 (m.freeApart r)) :
    Local m (m.release r).2 (m.release r).1 s t := by
  have sound := h.sound.release hr
  have whole := m.mem_free_release r
  have positive := (h.used r hr).positive
  have nodes : ∀ v, v ∈ head :: Run.starts (m.freeApart r) → v ∈ head :: Run.starts m.free := by
    intro v hv
    simp only [List.mem_cons, Run.mem_starts] at hv ⊢
    rcases hv with top | ⟨f, hf, start⟩
    · exact Or.inl top
    · exact Or.inr ⟨f, Arena.mem_free_of_freeApart hf, start⟩
  refine ⟨sound.partition.below _ (Arena.mem_runs_of_free whole), fun f _ hf' => ?_,
    fun f hf hf' => ?_, within.outside.mono (Run.within_refl _) nodes nodes⟩
  · exact sound.partition.apart_of_ne (Arena.mem_runs_of_used hf') (Arena.mem_runs_of_free whole)
      (sound.free_not_used whole hf').symm
  · have ne : f ≠ (m.release r).1 := by
      rintro rfl
      have apart := h.sound.partition.apart_of_ne (Arena.mem_runs_of_free hf)
        (Arena.mem_runs_of_used hr) (h.sound.free_not_used hf hr)
      have within := m.within_release r
      simp only [Run.Apart, Run.Within, Run.stop] at *
      omega
    exact sound.partition.apart_of_ne (Arena.mem_runs_of_free hf') (Arena.mem_runs_of_free whole) ne

end Shows

theorem word_formatted {units : Nat} (small : units ≤ Word.maxUnits) :
    (formatted units).units = units ∧ (formatted units).word units = Word.sentinel := by
  have bottom : (blank units).Covers units := (blank units).covers_units
  have word : (bordered units).word units = Word.sentinel := by
    rw [word_bordered bottom, if_pos rfl]
  unfold formatted
  split
  case isTrue some =>
    have outside : Rewired ⟨0, units⟩ (· = head) (· = head) (bordered units)
        ((bordered units).enlisted head ⟨0, units⟩ head) :=
      .enlisted small some (Run.within_refl _) (Nat.le_of_eq (Nat.zero_add _))
        (bordered units).covers_head (bordered units).covers_head rfl rfl
    have notHead : ¬ (units : Int) = head := by
      rw [head_eq]
      omega
    have beyond : Run.Beyond ⟨0, units⟩ units := Or.inr (by simp [Run.stop])
    exact ⟨outside.units, (outside.word_eq bottom beyond notHead notHead).trans word⟩
  case isFalse => exact ⟨rfl, word⟩

end Table

namespace Allocator

variable {a : Allocator} {m : Arena} {r : Run} {call : Call} {size : Nat} {before after : List Run}
  {units : Nat} {live : Ledger}

theorem within_of_takes (h : a.table.Shows m) (split : m.free = before ++ r :: after)
    (takes : call.Takes ⟨r.start, size⟩) (answered : (a.perform call).answer = .ok (some r.start)) :
    Table.TakesWithin a.table (a.perform call).after.table r size
      ((Run.starts before).getLastD head) ((Run.starts after).headD head) := by
  obtain ⟨positive, fits, left⟩ := after_of_takes h split takes answered
  rw [left]
  exact h.takesWithin split positive fits

theorem within_of_releases (h : a.table.Shows m) (hr : r ∈ m.used) (releases : call.Releases r) :
    Table.ReleasesWithin a.table (a.perform call).after.table (m.release r).1 (m.freeApart r) := by
  obtain ⟨t, merges, -, within⟩ := h.releasesWithin hr
  have released := release_of_used h hr merges
  rcases releases with rfl | rfl
  · rw [perform, free, released]
    exact within
  · rw [perform, freeMerged, released]
    exact within

theorem used_of_releases (h : a.table.Shows m) {x : Run} {answer : Option Nat}
    (releases : call.Releases x) (answered : (a.perform call).answer = .ok answer) :
    ∃ r ∈ m.used, r.start = x.start ∧ call.Releases r := by
  obtain ⟨_, done, -⟩ := arena_of_perform h answered
  rcases releases with rfl | rfl
  · obtain ⟨r, found, -⟩ := Option.map_eq_some_iff.1 done
    have start : r.start = x.start := by simpa using List.find?_some found
    exact ⟨r, List.mem_of_find?_eq_some found, start, Or.inl (by rw [start])⟩
  · obtain ⟨r, found, -⟩ := Option.map_eq_some_iff.1 done
    have start : r.start = x.start := by simpa using List.find?_some found
    exact ⟨r, List.mem_of_find?_eq_some found, start, Or.inr (by rw [start])⟩

theorem perform_cases (h : a.table.Shows m) (call : Call) :
    (a.perform call).after = a ∨
      (∃ before r after size, m.free = before ++ r :: after ∧ call.Takes ⟨r.start, size⟩ ∧
        (a.perform call).answer = .ok (some r.start)) ∨
      ∃ r ∈ m.used, call.Releases r := by
  cases follows h call with
  | refused _ _ program =>
    rw [program]
    exact Or.inl rfl
  | declined _ _ program =>
    rw [program]
    exact Or.inl rfl
  | @done value _ _ _ arena program _ =>
    have answered : (a.perform call).answer = .ok (some value) := by rw [program]
    right
    cases call with
    | alloc size =>
      obtain ⟨-, before, r, after, split, rfl, -, -⟩ := split_of_alloc h answered
      exact Or.inl ⟨before, r, after, size, split, Or.inl rfl, answered⟩
    | allocAt size unit =>
      obtain ⟨-, take⟩ := Arena.take_of_allocAt arena
      obtain ⟨before, r, after, split, will, -, rfl, -⟩ := Arena.take_eq_some take
      obtain ⟨rfl, -⟩ := of_decide_eq_true will
      exact Or.inl ⟨before, r, after, size, split, Or.inr rfl, answered⟩
    | free unit =>
      obtain ⟨r, hr, -, releases⟩ := used_of_releases h (x := ⟨unit, 0⟩) (Or.inl rfl) answered
      exact Or.inr ⟨r, hr, releases⟩
    | freeMerged unit =>
      obtain ⟨r, hr, -, releases⟩ := used_of_releases h (x := ⟨unit, 0⟩) (Or.inr rfl) answered
      exact Or.inr ⟨r, hr, releases⟩

theorem local_of_perform (h : a.table.Shows m) (call : Call) :
    ∃ m' x, (a.perform call).after.table.Shows m' ∧
      m'.used = Ledger.note m.used call (a.perform call).answer ∧
      Table.Local m m' x a.table (a.perform call).after.table := by
  rcases perform_cases h call with
    same | ⟨before, r, after, size, split, takes, answered⟩ | ⟨r, hr, releases⟩
  · obtain ⟨m', shows', -, used⟩ := perform_shows h call
    refine ⟨m', ⟨0, 0⟩, shows', used, ?_⟩
    rw [same]
    exact Table.Shows.local_refl m m' a.table
  · obtain ⟨positive, fits, left⟩ := after_of_takes h split takes answered
    rw [left, answered]
    refine ⟨_, r, (h.carve split positive fits).2, ?_, h.local_taken split positive fits⟩
    rcases takes with rfl | rfl <;> rfl
  · have within := within_of_releases h hr releases
    obtain ⟨⟨n, answered, -⟩, shows'⟩ := perform_release h hr releases
    refine ⟨_, _, shows', ?_, h.local_released hr within⟩
    rw [answered]
    rcases releases with rfl | rfl <;> rfl

theorem bottom_of_reaches (reached : Reaches units a live) :
    a.table.word a.units = Word.sentinel := by
  induction reached with
  | create made =>
    obtain ⟨small, -, -⟩ := create_cases made
    rw [create_eq small] at made
    cases made
    obtain ⟨same, word⟩ := Table.word_formatted small
    rw [Allocator.units, same]
    exact word
  | perform call before ih =>
    obtain ⟨-, m, shows', -, -⟩ := reaches_shows before
    obtain ⟨m', x, -, -, near⟩ := local_of_perform shows' call
    rw [Allocator.units, near.outside.units, shows'.word_bottom near]
    exact ih

structure Confined (a : Allocator) (live : Ledger) : Prop where
  takes : ∀ (call : Call) (x : Run), call.Takes x → (a.perform call).answer = .ok (some x.start) →
    ∃ before r after, a.freeRuns = .ok (before ++ r :: after) ∧ r.start = x.start ∧
      Table.TakesWithin a.table (a.perform call).after.table r x.size
        ((Run.starts before).getLastD head) ((Run.starts after).headD head)
  releases : ∀ (call : Call) (x : Run) (answer : Option Nat), call.Releases x →
    (a.perform call).answer = .ok answer →
      ∃ r ∈ live, r.start = x.start ∧ ∃ free whole others, a.freeRuns = .ok free ∧
        (a.perform call).after.freeRuns = .ok (whole :: others) ∧ r.Within whole ∧ others ⊆ free ∧
          Table.ReleasesWithin a.table (a.perform call).after.table whole others
  live : ∀ call : Call, ∀ x ∈ live, x ∈ live.note call (a.perform call).answer →
    ∀ v : Int, x.start ≤ v → v < x.stop → (a.perform call).after.table.word v = a.table.word v
  free : ∀ (call : Call) (free free' : List Run), a.freeRuns = .ok free →
    (a.perform call).after.freeRuns = .ok free' → ∀ f ∈ free, f ∈ free' →
      Table.SameMarks ((a.perform call).after.table.word f.start) (a.table.word f.start) ∧
        ∀ v : Int, f.start < v → v < f.stop →
          (a.perform call).after.table.word v = a.table.word v
  top : Table.SameMarks (a.table.word head) Word.sentinel
  bottom : a.table.word a.units = Word.sentinel

theorem takes_within (h : a.table.Shows m) {x : Run} (takes : call.Takes x)
    (answered : (a.perform call).answer = .ok (some x.start)) :
    ∃ before r after, a.freeRuns = .ok (before ++ r :: after) ∧ r.start = x.start ∧
      Table.TakesWithin a.table (a.perform call).after.table r x.size
        ((Run.starts before).getLastD head) ((Run.starts after).headD head) := by
  obtain ⟨before, r, after, split, start⟩ := split_of_takes h takes answered
  obtain ⟨first, size⟩ := x
  cases start
  exact ⟨before, r, after, h.freeRuns_eq.trans (congrArg Except.ok split), rfl,
    within_of_takes h split takes answered⟩

theorem releases_within (h : a.table.Shows m) {x : Run} {answer : Option Nat}
    (releases : call.Releases x) (answered : (a.perform call).answer = .ok answer) :
    ∃ r ∈ m.used, r.start = x.start ∧ ∃ free whole others, a.freeRuns = .ok free ∧
      (a.perform call).after.freeRuns = .ok (whole :: others) ∧ r.Within whole ∧ others ⊆ free ∧
        Table.ReleasesWithin a.table (a.perform call).after.table whole others := by
  obtain ⟨r, hr, start, releases⟩ := used_of_releases h releases answered
  have shows' := (perform_release h hr releases).2
  have listed := shows'.freeRuns_eq
  rw [m.free_release r] at listed
  exact ⟨r, hr, start, m.free, _, _, h.freeRuns_eq, listed, m.within_release r,
    fun f hf => Arena.mem_free_of_freeApart hf, within_of_releases h hr releases⟩

theorem confined_of_reaches (reached : Reaches units a live) : a.Confined live := by
  obtain ⟨-, m, h, -, rfl⟩ := reaches_shows reached
  refine ⟨fun call x takes answered => takes_within h takes answered,
    fun call x answer releases answered => releases_within h releases answered,
    fun call x hx hx' v low high => ?_, fun call free free' listed listed' f hf hf' => ?_,
    h.guarded.top, bottom_of_reaches reached⟩
  · obtain ⟨m', y, -, used, near⟩ := local_of_perform h call
    exact h.word_used near hx (used ▸ hx') low high
  · obtain ⟨m', y, shows', -, near⟩ := local_of_perform h call
    cases listed.symm.trans h.freeRuns_eq
    cases listed'.symm.trans shows'.freeRuns_eq
    exact h.words_free near hf hf'

def crowded : Allocator :=
  performAll ⟨Table.formatted 18⟩
    ([1, 1, 1, 1, 1, 1, 6, 1, 1, 1, 1, 1, 1].map .alloc ++ [17, 6, 15, 13, 4, 2, 0].map .free)

theorem reaches_crowded :
    Reaches 18 crowded [⟨16, 1⟩, ⟨14, 1⟩, ⟨12, 1⟩, ⟨5, 1⟩, ⟨3, 1⟩, ⟨1, 1⟩] :=
  reaches_of_ledger (by decide) _ (by decide +kernel)

theorem confined_of_crowded :
    Reaches 18 crowded [⟨16, 1⟩, ⟨14, 1⟩, ⟨12, 1⟩, ⟨5, 1⟩, ⟨3, 1⟩, ⟨1, 1⟩] ∧
    crowded.Confined [⟨16, 1⟩, ⟨14, 1⟩, ⟨12, 1⟩, ⟨5, 1⟩, ⟨3, 1⟩, ⟨1, 1⟩] ∧
    (crowded.perform (.alloc 3)).answer = .ok (some 6) ∧
    Table.changed crowded.table (crowded.perform (.alloc 3)).after.table =
      [6, 7, 8, 9, 10, 11, 15, 17] ∧
    (crowded.perform (.free 5)).answer = .ok (some 1) ∧
    Table.changed crowded.table (crowded.perform (.free 5)).after.table =
      [head, 0, 2, 4, 5, 11, 13, 15, 17] := by
  refine ⟨reaches_crowded, confined_of_reaches reaches_crowded, ?_, ?_, ?_, ?_⟩ <;> decide +kernel

end Allocator

end FirstFit

import FirstFit.Proofs.Sound
import FirstFit.Proofs.Surgery
import FirstFit.Proofs.Walks

namespace FirstFit.Table

structure Guarded (t : Table) : Prop where
  top : SameMarks (t.word head) Word.sentinel
  bottom : SameMarks (t.word t.units) Word.sentinel

structure Shows (t : Table) (m : Arena) : Prop where
  sound : m.Sound
  units : t.units = m.units
  small : t.units ≤ Word.maxUnits
  guarded : t.Guarded
  chain : t.Chain (Run.starts m.free)
  free : ∀ r ∈ m.free, t.Marked r true
  used : ∀ r ∈ m.used, t.Marked r false

theorem covers_head (t : Table) : t.Covers head := by
  rw [head_eq]
  exact ⟨Int.le_refl _, by omega⟩

theorem covers_units (t : Table) : t.Covers t.units := ⟨by omega, Int.le_refl _⟩

theorem clear_head (r : Run) : r.Clear head := by
  left
  rw [head_eq]
  omega

theorem clear_of_sound {m : Arena} {f : Run} {v : Int} (sound : m.Sound)
    (hv : v ∈ head :: Run.starts m.free) (hf : f ∈ m.runs) : f.Clear v := by
  rcases List.mem_cons.1 hv with rfl | hv
  · exact clear_head f
  · obtain ⟨g, hg, rfl⟩ := Run.mem_starts.1 hv
    by_cases same : f = g
    · rw [same]
      exact g.clear_start
    · exact (sound.partition.apart_of_ne hf (Arena.mem_runs_of_free hg) same).clear

theorem clear_of_split {m : Arena} {r f : Run} {before after : List Run} (sound : m.Sound)
    (split : m.free = before ++ r :: after) (hf : f ∈ m.runs) :
    ∀ v ∈ head :: (Run.starts before ++ Run.starts after), f.Clear v := by
  intro v hv
  refine clear_of_sound sound ?_ hf
  rw [split, Run.starts_append, Run.starts_cons]
  exact Chain.mem_around.2 (Or.inr hv)

namespace Guarded

variable {s t : Table}

theorem isFree_head (h : t.Guarded) (small : t.units ≤ Word.maxUnits) :
    t.isFree head = .ok false := by
  rw [isFree_of_covers small t.covers_head, h.top.free, Word.sentinel_isFree]

theorem isFree_units (h : t.Guarded) (small : t.units ≤ Word.maxUnits) :
    t.isFree t.units = .ok false := by
  rw [isFree_of_covers small t.covers_units, h.bottom.free, Word.sentinel_isFree]

theorem relinked {P : Int → Prop} (h : s.Guarded) (links : Relinked P s t) : t.Guarded where
  top := by
    have marks := links.marks head s.covers_head
    exact ⟨marks.free.trans h.top.free, marks.multi.trans h.top.multi⟩
  bottom := by
    have marks := links.marks s.units s.covers_units
    rw [links.units]
    exact ⟨marks.free.trans h.bottom.free, marks.multi.trans h.bottom.multi⟩

theorem of_words (h : s.Guarded) (units : t.units = s.units) (top : t.word head = s.word head)
    (bottom : t.word s.units = s.word s.units) : t.Guarded where
  top := by
    rw [top]
    exact h.top
  bottom := by
    rw [units, bottom]
    exact h.bottom

variable {r : Run} {free : Bool}

theorem sized (h : t.Guarded) (positive : 0 < r.size) (inside : r.stop ≤ t.units) :
    (t.sized r.start r.size).Guarded := by
  have stop := r.cast_stop
  have top : head < (r.start : Int) := by
    rw [head_eq]
    omega
  refine h.of_words (units_sized ..) ?_ ?_
  · exact word_sized_of_outside (by omega) (by omega) (by omega) t.covers_head (Or.inl top)
  · exact word_sized_of_outside (by omega) (by omega) (by omega) t.covers_units (by omega)

theorem freed (h : t.Guarded) (positive : 0 < r.size) (inside : r.stop ≤ t.units) :
    (t.freed r.start r.size free).Guarded := by
  have stop := r.cast_stop
  have top : head < (r.start : Int) := by
    rw [head_eq]
    omega
  refine h.of_words (units_freed ..) ?_ ?_
  · exact word_freed_of_outside (by omega) (by omega) (by omega) t.covers_head (Or.inl top)
  · exact word_freed_of_outside (by omega) (by omega) (by omega) t.covers_units (by omega)

theorem retagged (h : t.Guarded) (positive : 0 < r.size) (inside : r.stop ≤ t.units) :
    (t.retagged r.start r.size free).Guarded :=
  (h.sized positive inside).freed positive (by simpa using inside)

end Guarded

namespace Shows

variable {t : Table} {m : Arena} {r f : Run}

theorem arena_small (h : t.Shows m) : m.units ≤ Word.maxUnits := h.units ▸ h.small

theorem marked (h : t.Shows m) (hr : r ∈ m.runs) : ∃ free, t.Marked r free := by
  rcases List.mem_append.1 hr with hr | hr
  · exact ⟨true, h.free r hr⟩
  · exact ⟨false, h.used r hr⟩

theorem sized (h : t.Shows m) (hr : r ∈ m.runs) : t.Sized r := by
  obtain ⟨free, marked⟩ := h.marked hr
  exact marked.toSized

theorem size_eq (h : t.Shows m) (hr : r ∈ m.runs) : t.size r.start = .ok r.size :=
  (h.sized hr).size_eq h.small

theorem free_size_eq (h : t.Shows m) : ∀ r ∈ m.free, t.size r.start = .ok r.size :=
  fun _ hr => h.size_eq (Arena.mem_runs_of_free hr)

theorem exists_tiles (h : t.Shows m) : ∃ runs, runs.Perm m.runs ∧ t.Tiles 0 runs := by
  obtain ⟨runs, perm, contiguous⟩ := h.sound.partition.exists_contiguous (Nat.zero_le _)
  rw [← h.units] at contiguous
  exact ⟨runs, perm, tiles_of_contiguous contiguous fun r hr => h.size_eq (perm.mem_iff.1 hr)⟩

theorem startsRun_eq (h : t.Shows m) {unit : Nat} (inside : unit < m.units) :
    t.startsRun unit = .ok (m.startsRun unit) := by
  obtain ⟨runs, perm, tiles⟩ := h.exists_tiles
  have within := h.units
  rw [tiles.startsRun_eq (representable_units h.small) (by omega)]
  have notEnd : (unit : Int) ≠ t.units := by omega
  have same : (unit : Int) ∈ Run.starts runs ↔ ∃ r ∈ m.free ++ m.used, r.start = unit := by
    simp only [Run.mem_starts, perm.mem_iff, Arena.runs, Int.natCast_inj]
  simp only [Arena.startsRun, notEnd, or_false, same, Except.ok.injEq]
  rw [Bool.eq_iff_iff, decide_eq_true_eq, List.any_eq_true]
  simp only [decide_eq_true_eq]

theorem length_free (h : t.Shows m) : m.free.length ≤ t.units := by
  have total := h.sound.total
  rw [← h.units] at total
  have many := Run.length_le_total fun r hr =>
    h.sound.partition.positive r (Arena.mem_runs_of_free hr)
  omega

theorem search_eq (h : t.Shows m) (size : Nat) :
    t.search size =
      .ok ((m.free.find? fun r => size ≤ r.size).map fun r => ((r.start : Int), (r.size : Int))) := by
  rw [search, h.chain.next_head]
  have enough := h.length_free
  exact searchFrom_eq h.chain.forward h.free_size_eq (by simp only [stops]; omega)

theorem freeRuns_eq (h : t.Shows m) : t.freeRuns = .ok m.free := by
  rw [freeRuns, h.chain.next_head]
  have enough := h.length_free
  exact runsFrom_eq h.chain.forward h.free_size_eq (by simp only [stops]; omega)

theorem tagged (h : t.Shows m) (hr : r ∈ m.runs) : ∃ free, t.Tagged r free := by
  obtain ⟨free, marked⟩ := h.marked hr
  exact ⟨free, marked.tagged h.small⟩

theorem isFree_iff (h : t.Shows m) (hr : r ∈ m.runs) :
    t.isFree r.start = .ok true ↔ r ∈ m.free := by
  refine ⟨fun isFree => ?_, fun rFree => (h.free r rFree).isFree_start h.small⟩
  rcases List.mem_append.1 hr with rFree | rUsed
  · exact rFree
  · rw [(h.used r rUsed).isFree_start h.small] at isFree
    cases isFree

theorem word_eq {s : Table} {m' : Arena} (hs : s.Shows m) (ht : t.Shows m') (same : m.free = m'.free)
    {v : Int} (hv : v ∈ head :: Run.starts m.free) : s.word v = t.word v := by
  have chain : t.Chain (Run.starts m.free) := by
    rw [same]
    exact ht.chain
  have marks : SameMarks (s.word v) (t.word v) ∧ s.Covers v ∧ t.Covers v := by
    rcases List.mem_cons.1 hv with rfl | hv
    · have free := hs.guarded.top.free.trans ht.guarded.top.free.symm
      have multi := hs.guarded.top.multi.trans ht.guarded.top.multi.symm
      exact ⟨⟨free, multi⟩, s.covers_head, t.covers_head⟩
    · obtain ⟨r, hr, rfl⟩ := Run.mem_starts.1 hv
      have left := hs.free r hr
      have right := ht.free r (same ▸ hr)
      exact ⟨left.sameMarks right, left.covers_start, right.covers_start⟩
  obtain ⟨marks, coversLeft, coversRight⟩ := marks
  obtain ⟨next, prev⟩ := hs.chain.links_eq chain hv
  exact word_eq_of_links hs.small ht.small coversLeft coversRight marks next prev

theorem exists_runBefore (h : t.Shows m) (hr : r ∈ m.used) :
    ∃ u, t.runBefore r.start = .ok u ∧ (∀ f, m.above r = some f → (f.start : Int) = u) ∧
      (m.above r = none → t.isFree u = .ok false) := by
  have rIn := Arena.mem_runs_of_used hr
  by_cases top : r.start = 0
  · refine ⟨head, ?_, fun f found => ?_, fun _ => h.guarded.isFree_head h.small⟩
    · have atHead : (r.start : Int) - 1 = head := by
        rw [head_eq]
        omega
      rw [runBefore, sub_eq (by omega) (by omega), atHead]
      simp only [bind, Except.bind, entry_of_covers h.small t.covers_head, h.guarded.top.multi,
        Word.sentinel_isMulti]
      rfl
    · have meet := Arena.stop_of_above found
      have fIn := Arena.mem_runs_of_free (List.mem_of_find?_eq_some found)
      have := h.sound.partition.start_lt_stop fIn
      omega
  · obtain ⟨q, hq, meet⟩ := h.sound.partition.exists_stop rIn (by omega)
    have before := (h.sized hq).runBefore_eq h.small
    rw [meet] at before
    refine ⟨q.start, before, fun f found => ?_, fun none => ?_⟩
    · have fIn := Arena.mem_runs_of_free (List.mem_of_find?_eq_some found)
      have same := h.sound.partition.eq_of_stop fIn hq ((Arena.stop_of_above found).trans meet.symm)
      rw [same]
    · rcases List.mem_append.1 hq with qFree | qUsed
      · exact absurd meet (by simpa using List.find?_eq_none.1 none q qFree)
      · exact (h.used q qUsed).isFree_start h.small

theorem isFree_stop (h : t.Shows m) (hr : r ∈ m.used) (none : m.below r = none) :
    t.isFree r.stop = .ok false := by
  have rIn := Arena.mem_runs_of_used hr
  by_cases bottom : r.stop = m.units
  · rw [bottom, ← h.units]
    exact h.guarded.isFree_units h.small
  · have fits := h.sound.partition.below r rIn
    obtain ⟨q, hq, meet⟩ := h.sound.partition.exists_start rIn (by omega)
    rcases List.mem_append.1 hq with qFree | qUsed
    · exact absurd meet (by simpa using List.find?_eq_none.1 none q qFree)
    · rw [← meet]
      exact (h.used q qUsed).isFree_start h.small

end Shows

end FirstFit.Table

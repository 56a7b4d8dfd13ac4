import FirstFit.Proofs.Frames

namespace FirstFit

theorem Checked.eq_of_add {x y z : Int} (h : add x y = .ok z) : z = x + y := by
  unfold add at h
  split at h
  · exact (Except.ok.inj h).symm
  · cases h

namespace Table

inductive Walked (t : Table) (goal : Int) : Nat → Int → Prop where
  | start : Walked t goal 0 0
  | step {k : Nat} {cursor size after : Int} : Walked t goal k cursor → cursor < goal →
      t.size cursor = .ok size → Checked.add cursor size = .ok after → Walked t goal (k + 1) after

def boundaries (t : Table) (runs : List Run) : List Int := Run.starts runs ++ [(t.units : Int)]

variable {t : Table} {runs : List Run} {r : Run} {goal cursor : Int} {k : Nat}

theorem mem_boundaries : goal ∈ t.boundaries runs ↔ goal ∈ Run.starts runs ∨ goal = t.units := by
  rw [boundaries, List.mem_append, List.mem_singleton]

theorem Walked.arrives_eq (walked : t.Walked goal k cursor) (more : Nat) :
    t.arrives goal (k + more) 0 = t.arrives goal more cursor := by
  induction walked generalizing more with
  | start => rw [Nat.zero_add]
  | step _ short size sum ih =>
    rw [Nat.add_assoc, ih, Nat.add_comm 1 more, arrives, if_pos short, size]
    simp only [bind, Except.bind, sum]

theorem arrives_of_le (past : goal ≤ cursor) (steps : Nat) :
    t.arrives goal steps cursor = .ok (cursor == goal) := by
  cases steps <;> rw [arrives, if_neg (by omega)]

namespace Tiles

theorem size_eq {u : Nat} (h : t.Tiles u runs) (hr : r ∈ runs) : t.size r.start = .ok r.size := by
  induction runs generalizing u with
  | nil => cases hr
  | cons s rest ih =>
    obtain ⟨rfl, -, size, tail⟩ := h
    rcases List.mem_cons.1 hr with rfl | there
    · exact size
    · exact ih tail there

theorem zero_mem (h : t.Tiles 0 runs) : 0 ∈ t.boundaries runs := by
  cases runs with
  | nil =>
    have none : 0 = t.units := h
    rw [mem_boundaries, ← none]
    exact Or.inr rfl
  | cons r rest =>
    have start : r.start = 0 := h.1
    rw [mem_boundaries, Run.starts_cons, start]
    exact Or.inl List.mem_cons_self

theorem stop_mem (h : t.Tiles 0 runs) (hr : r ∈ runs) : (r.stop : Int) ∈ t.boundaries runs := by
  rw [mem_boundaries]
  by_cases more : r.stop < t.units
  · obtain ⟨s, hs, start⟩ := h.partition.exists_start hr more
    exact Or.inl (Run.mem_starts.2 ⟨s, hs, congrArg Nat.cast start⟩)
  · have below := h.partition.below r hr
    right
    omega

theorem exists_run (within : goal ≤ t.units) (short : cursor < goal)
    (there : cursor ∈ t.boundaries runs) : ∃ r ∈ runs, (r.start : Int) = cursor := by
  rcases mem_boundaries.1 there with start | bottom
  · exact Run.mem_starts.1 start
  · omega

theorem walked_stop (h : t.Tiles 0 runs) (width : Checked.Representable t.units) (hr : r ∈ runs)
    (walked : t.Walked goal k r.start) (short : r.start < goal) : t.Walked goal (k + 1) r.stop := by
  have below := h.partition.below r hr
  have stop := r.cast_stop
  have sum : Checked.Representable ((r.start : Int) + r.size) := ⟨by omega, by
    have := width.2
    omega⟩
  rw [stop]
  exact .step walked short (h.size_eq hr) (Checked.add_of_representable sum)

theorem walked_mem (h : t.Tiles 0 runs) (within : goal ≤ t.units) (walked : t.Walked goal k cursor) :
    cursor ∈ t.boundaries runs ∧ k ≤ cursor ∧ k ≤ goal.toNat := by
  induction walked with
  | start => exact ⟨h.zero_mem, Int.le_refl 0, Nat.zero_le _⟩
  | @step k cursor size after _ short known sum ih =>
    obtain ⟨there, steps, -⟩ := ih
    obtain ⟨r, hr, rfl⟩ := exists_run within short there
    have positive := h.partition.positive r hr
    have below := h.partition.below r hr
    have stop := r.cast_stop
    rw [h.size_eq hr] at known
    cases known
    rw [Checked.eq_of_add sum, ← stop]
    exact ⟨h.stop_mem hr, by omega, by omega⟩

theorem walked_further (h : t.Tiles 0 runs) (width : Checked.Representable t.units)
    (within : goal ≤ t.units) (n : Nat) :
    ∃ k cursor, t.Walked goal k cursor ∧ (goal ≤ cursor ∨ k = n) := by
  induction n with
  | zero => exact ⟨0, 0, .start, Or.inr rfl⟩
  | succ n ih =>
    obtain ⟨k, cursor, walked, past⟩ := ih
    by_cases short : cursor < goal
    · obtain ⟨r, hr, rfl⟩ := exists_run within short (h.walked_mem within walked).1
      exact ⟨k + 1, r.stop, h.walked_stop width hr walked short, Or.inr (by omega)⟩
    · exact ⟨k, cursor, walked, Or.inl (by omega)⟩

theorem exists_walked (h : t.Tiles 0 runs) (width : Checked.Representable t.units)
    (within : goal ≤ t.units) : ∃ k cursor, t.Walked goal k cursor ∧ goal ≤ cursor := by
  obtain ⟨k, cursor, walked, past⟩ := h.walked_further width within (goal.toNat + 1)
  have few := (h.walked_mem within walked).2.2
  exact ⟨k, cursor, walked, by omega⟩

end Tiles

structure Decides (t : Table) (runs : List Run) (u : Int) : Prop where
  answer : t.startsRun u = .ok (decide (u ∈ t.boundaries runs))
  arrives : ∃ k cursor, k ≤ u.toNat ∧ t.Walked u k cursor ∧ u ≤ cursor ∧
    t.startsRun u = .ok (cursor == u)
  brief : ∀ k cursor, t.Walked u k cursor → k ≤ u.toNat
  onward : ∀ k cursor, t.Walked u k cursor → cursor < u →
    ∃ r ∈ runs, (r.start : Int) = cursor ∧ 0 < r.size ∧ t.size cursor = .ok r.size ∧
      t.Walked u (k + 1) r.stop

theorem decides_of_tiles (width : Checked.Representable t.units) (h : t.Tiles 0 runs)
    (within : goal ≤ t.units) : t.Decides runs goal where
  answer := by
    rw [h.startsRun_eq width within, Except.ok.injEq, decide_eq_decide]
    exact mem_boundaries.symm
  arrives := by
    obtain ⟨k, cursor, walked, past⟩ := h.exists_walked width within
    have few := (h.walked_mem within walked).2.2
    refine ⟨k, cursor, few, walked, past, ?_⟩
    have whole : k + (goal.toNat - k) = goal.toNat := by omega
    rw [startsRun, ← whole, walked.arrives_eq, arrives_of_le past]
  brief := fun _ _ walked => (h.walked_mem within walked).2.2
  onward := by
    intro k cursor walked short
    obtain ⟨r, hr, rfl⟩ := Tiles.exists_run within short (h.walked_mem within walked).1
    exact ⟨r, hr, rfl, h.partition.positive r hr, h.size_eq hr, h.walked_stop width hr walked short⟩

section Stale

variable {units : Nat} {v : Int}

theorem word_blank (hv : (blank units).Covers v) : (blank units).word v = 0 := by
  have inside : slot v < units + 2 := slot_lt hv
  simp [word, blank, inside]

theorem word_formatted_inside (small : units ≤ Word.maxUnits) (low : 0 < v) (high : v < units) :
    (formatted units).word v =
      if v = units - 1 then Word.withFree true (Word.sizeTag units)
      else if v = 1 then Word.sizeTag units else 0 := by
  have stop : (Run.stop ⟨0, units⟩ : Int) = units := by simp [Run.stop]
  have top : (bordered units).Covers head := (bordered units).covers_head
  have first : (bordered units).Covers 0 := ⟨by omega, by simp⟩
  have covers : (blank units).Covers v := ⟨by omega, Int.le_of_lt high⟩
  have covers' : (bordered units).Covers v := covers
  have links : Relinked (fun v => v = head ∨ v = 0 ∨ v = head)
      ((bordered units).retagged 0 units true) (formatted units) := by
    rw [formatted, if_pos (by omega)]
    exact relinked_spliced (by simpa using small) (by simpa using top) (by simpa using first)
      (by simpa using top)
  have tags : ((bordered units).retagged 0 units true).word v = _ :=
    word_retagged_inside (x := ⟨0, units⟩) low (by omega) (by simp [Run.stop])
  have blank : (bordered units).word v = 0 := by
    rw [word_bordered covers, if_neg (by omega), if_neg (by rw [head_eq]; omega), word_blank covers]
  rw [links.words v (by simpa using covers') (by rw [head_eq]; omega), tags, stop, blank]
  rfl

theorem size_formatted_one (long : 4 ≤ units) (small : units ≤ Word.maxUnits) :
    (formatted units).size 1 = .ok 0 := by
  have same : (formatted units).units = units := (Shows.fresh units small).2.units
  have second : (formatted units).Covers 1 := ⟨by omega, by omega⟩
  have third : (formatted units).Covers 2 := ⟨by omega, by omega⟩
  have tags : (formatted units).word 1 = Word.sizeTag units := by
    rw [word_formatted_inside small (by omega) (by omega), if_neg (by omega), if_pos rfl]
  have nothing : (formatted units).word 2 = 0 := by
    rw [word_formatted_inside small (by omega) (by omega), if_neg (by omega), if_neg (by decide)]
  have multi : ((formatted units).word 1).isMulti = true := by rw [tags, Word.isMulti_sizeTag]
  have small' : (formatted units).units ≤ Word.maxUnits := by rwa [same]
  rw [size_of_multi small' second third multi]
  change Except.ok ((formatted units).word 2).sizeField = _
  rw [nothing]
  rfl

end Stale

end Table

namespace Arena

theorem releaseRefusal_ne_endlessWalk (m : Arena) (unit : Nat) :
    m.releaseRefusal unit ≠ some .endlessWalk := by
  unfold releaseRefusal
  split
  · simp
  · split
    · simp
    · split <;> simp

theorem refusal_ne_endlessWalk (m : Arena) (call : Call) : m.refusal call ≠ some .endlessWalk := by
  cases call with
  | alloc size =>
    change takeRefusal size ≠ _
    unfold takeRefusal
    split <;> simp
  | allocAt size unit =>
    change m.placeRefusal size unit ≠ _
    unfold placeRefusal
    split
    · simp
    · split <;> simp
  | free unit => exact m.releaseRefusal_ne_endlessWalk unit
  | freeMerged unit => exact m.releaseRefusal_ne_endlessWalk unit

end Arena

namespace Allocator

variable {a : Allocator} {m : Arena} {units : Nat} {live : Ledger}

structure Surefooted (a : Allocator) (runs : List Run) : Prop where
  tiles : a.table.Tiles 0 runs
  decides : ∀ u : Int, u ≤ a.units → a.table.Decides runs u
  ends : ∀ call, (a.perform call).answer ≠ .error .endlessWalk

theorem answer_ne_endlessWalk (h : a.table.Shows m) (call : Call) :
    (a.perform call).answer ≠ .error .endlessWalk := by
  rw [perform_answer h, Arena.answer]
  have never := m.refusal_ne_endlessWalk call
  cases refused : m.refusal call with
  | none => simp
  | some fault =>
    rintro same
    cases same
    exact never refused

theorem surefooted_of_shows (h : a.table.Shows m) : ∃ runs, a.Surefooted runs := by
  obtain ⟨runs, -, tiles⟩ := h.exists_tiles
  have width := Table.representable_units h.small
  exact ⟨runs, tiles, fun _ within => Table.decides_of_tiles width tiles within,
    answer_ne_endlessWalk h⟩

theorem tiles_formatted (some : 0 < units) (small : units ≤ Word.maxUnits) :
    (Table.formatted units).Tiles 0 [⟨0, units⟩] := by
  have fresh := (Table.Shows.fresh units small).2
  have whole : (⟨0, units⟩ : Run) ∈ (Arena.fresh units).runs := by
    simp [Arena.runs, Arena.fresh, Nat.pos_iff_ne_zero.1 some]
  exact ⟨rfl, some, fresh.size_eq whole, (Nat.zero_add _).trans fresh.units.symm⟩

theorem startsRun_decides :
    (∀ (t : Table) (runs : List Run), Checked.Representable t.units → t.Tiles 0 runs →
      ∀ u : Int, u ≤ t.units → t.Decides runs u) ∧
    (∀ (units : Nat) (a : Allocator) (live : Ledger), Reaches units a live →
      ∃ runs, a.Surefooted runs) ∧
    ∀ units, 4 ≤ units → units ≤ Word.maxUnits →
      ∃ a record, create units = .ok (a, record) ∧ a.table.Tiles 0 [⟨0, units⟩] ∧
        a.table.size 1 = .ok 0 := by
  refine ⟨fun t runs width tiles u within => ?_, fun units a live reached => ?_,
    fun units long small => ?_⟩
  · exact Table.decides_of_tiles width tiles within
  · obtain ⟨-, m, shows', -, -⟩ := reaches_shows reached
    exact surefooted_of_shows shows'
  · exact ⟨_, _, create_eq small, tiles_formatted (by omega) small,
      Table.size_formatted_one long small⟩

def halved : Allocator := performAll ⟨Table.formatted 8⟩ [.alloc 3]

theorem startsRun_decides_halved : Reaches 8 halved [⟨0, 3⟩] ∧
    halved.Surefooted [⟨0, 3⟩, ⟨3, 5⟩] ∧ halved.table.size 4 = .ok 0 ∧
      halved.table.Decides [⟨0, 3⟩, ⟨3, 5⟩] 7 := by
  have reached : Reaches 8 halved [⟨0, 3⟩] := reaches_of_ledger (by decide) _ (by decide +kernel)
  have tiles : halved.table.Tiles 0 [⟨0, 3⟩, ⟨3, 5⟩] :=
    ⟨rfl, by decide, by decide +kernel, rfl, by decide, by decide +kernel, rfl⟩
  obtain ⟨runs, sure⟩ := startsRun_decides.2.1 8 halved _ reached
  cases sure.tiles.unique tiles
  have decides := startsRun_decides.1 halved.table _ (by decide +kernel) tiles 7 (by decide +kernel)
  exact ⟨reached, sure, by decide +kernel, decides⟩

end Allocator

end FirstFit

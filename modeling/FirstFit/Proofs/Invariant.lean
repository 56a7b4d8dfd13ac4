import FirstFit.Proofs.Histories

namespace FirstFit

namespace Table

structure Intact (t : Table) (runs : List Run) (stops : List Int) : Prop where
  top : (t.word head).isFree = false ∧ (t.word head).isMulti = false
  bottom : (t.word t.units).isFree = false ∧ (t.word t.units).isMulti = false
  tiles : t.Tiles 0 runs
  tagged : ∀ r ∈ runs, ∃ free, t.Tagged r free
  merged : ∀ r ∈ runs, ∀ s ∈ runs, r.stop = s.start →
    ¬ (t.isFree r.start = .ok true ∧ t.isFree s.start = .ok true)
  chain : t.Chain stops
  nodes : ∀ u, u ∈ stops ↔ ∃ r ∈ runs, (r.start : Int) = u ∧ t.isFree u = .ok true
  forth : ∀ u ∈ head :: stops, ∃ v, t.next u = .ok v ∧ t.prev v = .ok u
  back : ∀ u ∈ head :: stops, ∃ v, t.prev u = .ok v ∧ t.next v = .ok u

theorem Shows.intact {t : Table} {m : Arena} (h : t.Shows m) :
    ∃ runs, t.Intact runs (Run.starts m.free) := by
  obtain ⟨runs, perm, tiles⟩ := h.exists_tiles
  refine ⟨runs, ?_⟩
  exact {
    top := ⟨h.guarded.top.free, h.guarded.top.multi⟩
    bottom := ⟨h.guarded.bottom.free, h.guarded.bottom.multi⟩
    tiles := tiles
    tagged := fun r hr => h.tagged (perm.mem_iff.1 hr)
    merged := by
      rintro r hr s hs meet ⟨rFree, sFree⟩
      have rFree := (h.isFree_iff (perm.mem_iff.1 hr)).1 rFree
      have sFree := (h.isFree_iff (perm.mem_iff.1 hs)).1 sFree
      exact h.sound.spread r rFree s sFree meet
    chain := h.chain
    nodes := by
      intro u
      rw [Run.mem_starts]
      constructor
      · rintro ⟨r, hr, rfl⟩
        have rIn := Arena.mem_runs_of_free hr
        exact ⟨r, perm.mem_iff.2 rIn, rfl, (h.isFree_iff rIn).2 hr⟩
      · rintro ⟨r, hr, rfl, isFree⟩
        exact ⟨r, (h.isFree_iff (perm.mem_iff.1 hr)).1 isFree, rfl⟩
    forth := fun u hu => h.chain.prev_next hu
    back := fun u hu => h.chain.next_prev hu }

end Table

namespace Allocator

theorem intact_performAll (units : Nat) (small : units ≤ Word.maxUnits) :
    ∃ a record, create units = .ok (a, record) ∧ ∀ calls : List Call,
      (a.performAll calls).units = units ∧
        ∃ runs stops, (a.performAll calls).table.Intact runs stops := by
  obtain ⟨a, made, fresh⟩ := create_shows small
  refine ⟨a, _, made, fun calls => ?_⟩
  obtain ⟨m, shows', same⟩ := performAll_shows fresh calls
  obtain ⟨runs, intact⟩ := shows'.intact
  exact ⟨shows'.units.trans same, runs, _, intact⟩

theorem intact_performAll_largest : 32766 ≤ Word.maxUnits ∧
    ∃ a record, create 32766 = .ok (a, record) ∧ ∀ calls : List Call,
      (a.performAll calls).units = 32766 ∧
        ∃ runs stops, (a.performAll calls).table.Intact runs stops :=
  ⟨by decide, intact_performAll 32766 (by decide)⟩

end Allocator

end FirstFit

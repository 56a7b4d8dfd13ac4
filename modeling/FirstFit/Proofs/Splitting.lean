import FirstFit.Proofs.Shows

namespace FirstFit.Table.Shows

variable {t : Table} {m : Arena} {r f : Run} {size : Nat} {before after : List Run}

theorem mem_free_of_split (split : m.free = before ++ r :: after) (hf : f ∈ before ++ after) :
    f ∈ m.free := by
  rw [split]
  exact List.perm_middle.mem_iff.2 (List.mem_cons_of_mem _ hf)

theorem chain_of_split (h : t.Shows m) (split : m.free = before ++ r :: after) :
    t.Chain (Run.starts before ++ (r.start : Int) :: Run.starts after) := by
  have chain := h.chain
  rwa [split, Run.starts_append, Run.starts_cons] at chain

theorem carve_whole (h : t.Shows m) (split : m.free = before ++ r :: after) :
    takeFront r.start r.size r.size t =
        .ok () (t.taken (Run.starts before) (Run.starts after) r r.size) ∧
      (t.taken (Run.starts before) (Run.starts after) r r.size).Shows
        { m with free := before ++ after, used := r :: m.used } := by
  have rFree : r ∈ m.free := by simp [split]
  have rIn := Arena.mem_runs_of_free rFree
  have marked := h.free r rFree
  have positive := marked.positive
  have chain := h.chain_of_split split
  have clear {f : Run} (hf : f ∈ m.runs) := clear_of_split h.sound split hf
  have links := chain.relinked_unlinked h.small
  have inside : r.stop ≤ (t.unlinked (Run.starts before) (Run.starts after)).units := by
    simpa using marked.inside
  have keep {f : Run} {free : Bool} (hf : f ∈ before ++ after ∨ f ∈ m.used)
      (mark : t.Marked f free) :
      ((t.unlinked (Run.starts before) (Run.starts after)).freed r.start r.size false).Marked
        f free := by
    obtain ⟨fIn, apart⟩ := h.sound.apart_of_split split (List.mem_append.2 hf)
    exact (mark.relinked links (clear fIn)).freed positive inside apart
  have sound := h.sound.carve split positive (Nat.le_refl _)
  simp only [Arena.carved, Arena.rest, if_true, List.append_nil] at sound
  refine ⟨takeFront_eq_whole h.small chain marked (clear rIn), ?_⟩
  rw [taken, if_neg (Nat.lt_irrefl _)]
  exact {
    sound := sound
    units := by simpa using h.units
    small := by simpa using h.small
    guarded := (h.guarded.relinked links).freed positive inside
    chain := by
      rw [Run.starts_append]
      exact (chain.unlinked h.small).freed positive inside
    free := fun f hf => keep (Or.inl hf) (h.free f (mem_free_of_split split hf))
    used := by
      have taken := marked.relinked links (clear rIn)
      refine List.forall_mem_cons.2 ⟨marked_freed taken.toSized, fun f hf => ?_⟩
      exact keep (Or.inr hf) (h.used f hf) }

theorem carve_part (h : t.Shows m) (split : m.free = before ++ r :: after) (positive : 0 < size)
    (less : size < r.size) :
    takeFront r.start size r.size t =
        .ok () (t.taken (Run.starts before) (Run.starts after) r size) ∧
      (t.taken (Run.starts before) (Run.starts after) r size).Shows
        { m with free := before ++ remainder r size :: after,
                 used := ⟨r.start, size⟩ :: m.used } := by
  have rFree : r ∈ m.free := by simp [split]
  have marked := h.free r rFree
  have inside := marked.inside
  let front : Run := ⟨r.start, size⟩
  have frontWithin : front.Within r := by
    simp only [front, Run.Within, Run.stop]
    omega
  have restApart : (remainder r size).Apart front := by
    simp only [front, remainder, Run.Apart, Run.stop]
    omega
  have chain := h.chain_of_split split
  have clear {f : Run} (hf : f ∈ m.runs) := clear_of_split h.sound split hf
  have clearRun := clear (Arena.mem_runs_of_free rFree)
  have frontInside : front.stop ≤
      (t.restLeft (Run.starts before) (Run.starts after) r size).units := by
    rw [units_restLeft]
    exact Nat.le_trans frontWithin.2 inside
  have small : (t.restLeft (Run.starts before) (Run.starts after) r size).units ≤
      Word.maxUnits := by
    simpa using h.small
  have keep {f : Run} {free : Bool} (hf : f ∈ before ++ after ∨ f ∈ m.used)
      (mark : t.Marked f free) :
      ((t.restLeft (Run.starts before) (Run.starts after) r size).retagged
        front.start front.size false).Marked f free := by
    obtain ⟨fIn, apart⟩ := h.sound.apart_of_split split (List.mem_append.2 hf)
    exact (mark.restLeft h.small chain inside less apart (clear fIn)).retagged positive frontInside
      (apart.within frontWithin)
  have sound := h.sound.carve split positive (Nat.le_of_lt less)
  have left : Arena.rest r size = [remainder r size] := if_neg (by omega)
  rw [Arena.carved, left, List.append_assoc, List.singleton_append] at sound
  refine ⟨takeFront_eq_part h.small chain inside positive less, ?_⟩
  rw [taken, if_pos less]
  exact {
    sound := sound
    units := by simpa using h.units
    small := by simpa using h.small
    guarded := by
      have retagged : (t.retagged (remainder r size).start (remainder r size).size true).Guarded :=
        h.guarded.retagged (remainder_positive less)
          (Nat.le_trans (remainder_within r less).2 inside)
      have links := chain.relinked_restLeft h.small inside less
      exact (retagged.relinked links).retagged positive frontInside
    chain := by
      rw [Run.starts_append, Run.starts_cons]
      refine (chain.restLeft h.small inside positive less clearRun).retagged positive frontInside
        fun v hv => ?_
      rcases Chain.mem_around.1 hv with rfl | hv
      · exact restApart.symm.clear
      · exact (clearRun v hv).within frontWithin
    free := by
      intro f hf
      rcases List.mem_cons.1 (List.perm_middle.mem_iff.1 hf) with rfl | hf
      · exact (marked_restLeft h.small chain inside less clearRun).retagged positive frontInside
          restApart
      · exact keep (Or.inl hf) (h.free f (mem_free_of_split split hf))
    used := by
      refine List.forall_mem_cons.2 ⟨marked_retagged small positive frontInside, fun f hf => ?_⟩
      exact keep (Or.inr hf) (h.used f hf) }

theorem carve (h : t.Shows m) (split : m.free = before ++ r :: after) (positive : 0 < size)
    (fits : size ≤ r.size) :
    takeFront r.start size r.size t =
        .ok () (t.taken (Run.starts before) (Run.starts after) r size) ∧
      (t.taken (Run.starts before) (Run.starts after) r size).Shows
        (m.carved before r after size) := by
  by_cases whole : r.size = size
  · subst whole
    have gone : Arena.rest r r.size = [] := if_pos rfl
    rw [Arena.carved, gone, List.append_nil]
    exact h.carve_whole split
  · have left : Arena.rest r size = [remainder r size] := if_neg whole
    rw [Arena.carved, left, List.append_assoc, List.singleton_append]
    exact h.carve_part split positive (by omega)

end FirstFit.Table.Shows

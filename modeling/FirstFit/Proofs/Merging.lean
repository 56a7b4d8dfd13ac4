import FirstFit.Proofs.Shows

namespace FirstFit.Table

namespace Shows

section Enlist

variable {t : Table} {m : Arena} {whole : Run} {rest : List Run}

theorem enlist (sound : m.Sound) (units : t.units = m.units) (small : t.units ≤ Word.maxUnits)
    (guarded : t.Guarded) (list : m.free = whole :: rest) (chain : t.Chain (Run.starts rest))
    (free : ∀ f ∈ rest, t.Marked f true) (used : ∀ f ∈ m.used, t.Marked f false) :
    setSize whole.start whole.size t = .ok () (t.sized whole.start whole.size) ∧
      insertFront whole.start (t.sized whole.start whole.size) =
        .ok () (t.enlisted head whole ((Run.starts rest).headD head)) ∧
      (t.enlisted head whole ((Run.starts rest).headD head)).Shows m := by
  have wholeFree : whole ∈ m.free := by simp [list]
  have wholeIn := Arena.mem_runs_of_free wholeFree
  have positive := sound.partition.positive whole wholeIn
  have inside : whole.stop ≤ t.units := by
    rw [units]
    exact sound.partition.below whole wholeIn
  have stop := whole.cast_stop
  have split : m.free = [] ++ whole :: rest := list
  have apart {f : Run} (hf : f ∈ rest ++ m.used) := sound.apart_of_split split hf
  have clear {f : Run} (hf : f ∈ m.runs) := clear_of_split sound split hf
  have fresh : (whole.start : Int) ∉ Run.starts rest := by
    intro there
    obtain ⟨f, hf, start⟩ := Run.mem_starts.1 there
    obtain ⟨fIn, away⟩ := apart (List.mem_append_left _ hf)
    have := sound.partition.start_lt_stop fIn
    simp only [Run.Apart, Run.stop] at *
    omega
  have retagged : (t.retagged whole.start whole.size true).Chain (Run.starts rest) :=
    chain.retagged positive inside (clear wholeIn)
  have links : Relinked (fun v => v ∈ head :: Run.starts m.free)
      (t.retagged whole.start whole.size true)
      (t.enlisted head whole ((Run.starts rest).headD head)) := by
    refine (relinked_spliced (by simpa using small) ?_ ?_ ?_).mono ?_
    · exact retagged.covers List.mem_cons_self
    · exact ⟨by omega, by rw [units_retagged]; omega⟩
    · exact retagged.covers (Chain.headD_mem [] _)
    · rintro v (rfl | rfl | rfl)
      · exact List.mem_cons_self
      · simp [list]
      · rw [list]
        exact Chain.mem_around.2 (Or.inr (Chain.headD_mem [] (Run.starts rest)))
  have keep {f : Run} {mark : Bool} (hf : f ∈ rest ++ m.used) (marked : t.Marked f mark) :
      (t.enlisted head whole ((Run.starts rest).headD head)).Marked f mark := by
    obtain ⟨fIn, away⟩ := apart hf
    exact (marked.retagged positive inside away).relinked links
      fun v hv => clear_of_sound sound hv fIn
  have sized : (t.sized whole.start whole.size).Chain (Run.starts rest) :=
    chain.sized positive inside (clear wholeIn)
  have program := insertFront_eq (u := whole.start) (by simpa using small) sized (by omega)
    (by omega) (by rw [units_sized]; omega) (size_sized small positive inside)
  refine ⟨setSize_eq small (by omega) (by omega) (by omega), program, ?_⟩
  exact {
    sound := sound
    units := by simpa using units
    small := by simpa using small
    guarded := (guarded.retagged positive inside).relinked links
    chain := by
      rw [list, Run.starts_cons]
      refine retagged.spliced_front (by simpa using small) fresh ⟨by omega, ?_⟩
      rw [units_retagged]
      omega
    free := by
      rw [list]
      refine List.forall_mem_cons.2 ⟨?_, fun f hf => ?_⟩
      · exact (marked_retagged small positive inside).relinked links
          fun v hv => clear_of_sound sound hv wholeIn
      · exact keep (List.mem_append_left _ hf) (free f hf)
    used := fun f hf => keep (List.mem_append_right _ hf) (used f hf) }

end Enlist

section Absorb

variable {t t' : Table} {free : List Run} {p : Run → Bool} {u sofar : Int}

structure Detached (t t' : Table) (rest : List Run) : Prop where
  links : ∃ v ∈ head :: Run.starts rest, ∃ w ∈ head :: Run.starts rest,
    Relinked (fun u => u = v ∨ u = w) t t'
  chain : t'.Chain (Run.starts rest)

theorem Detached.relinked {rest : List Run} (h : Detached t t' rest) :
    Relinked (fun v => v ∈ head :: Run.starts rest) t t' := by
  obtain ⟨v, hv, w, hw, links⟩ := h.links
  refine links.mono ?_
  rintro u (rfl | rfl)
  · exact hv
  · exact hw

theorem absorb_eq (small : t.units ≤ Word.maxUnits) (chain : t.Chain (Run.starts free))
    (marked : ∀ f ∈ free, t.Marked f true)
    (unique : ∀ a ∈ free, ∀ b ∈ free, p a = true → p b = true → a = b)
    (there : ∀ f, free.find? p = some f → (f.start : Int) = u)
    (absent : free.find? p = none → t.isFree u = .ok false)
    (low : 0 ≤ sofar) (high : ∀ f, free.find? p = some f → sofar + f.size ≤ t.units) :
    ∃ t', absorb u sofar t = .ok ((free.find? p).map fun f => sofar + f.size) t' ∧
      Detached t t' (free.filter fun f => !p f) := by
  cases found : free.find? p with
  | none =>
    have keep : (free.filter fun f => !p f) = free := by
      rw [List.filter_eq_self]
      intro f hf
      simpa using List.find?_eq_none.1 found f hf
    rw [keep]
    refine ⟨t, ?_, ⟨head, List.mem_cons_self, head, List.mem_cons_self, Relinked.refl _ t⟩, chain⟩
    rw [absorb, branch_false (absent found)]
    rfl
  | some f =>
    obtain ⟨pf, before, after, rfl, -⟩ := List.find?_eq_some_iff_append.1 found
    have distinct : (before ++ f :: after).Nodup :=
      List.Pairwise.of_map _ (fun _ _ ne eq => ne (by rw [eq])) chain.distinct
    have only := only_of_unique distinct fun g hg pg => unique g hg f (by simp) pg pf
    have start := there f found
    have mark := marked f (by simp)
    have isFree : t.isFree u = .ok true := by
      rw [← start]
      exact mark.isFree_start small
    have size : t.size u = .ok f.size := by
      rw [← start]
      exact mark.size_eq small
    have fits := high f found
    rw [Run.starts_append, Run.starts_cons, start] at chain
    rw [filter_not_of_split pf only]
    refine ⟨t.unlinked (Run.starts before) (Run.starts after), ?_, ⟨_, ?_, _, ?_,
      relinked_bypassed small chain.covers_getLastD chain.covers_headD⟩, ?_⟩
    · rw [absorb, branch_true isFree, bind_ok (ask_ok size),
        bind_ok (compute_ok (add_eq (by omega) (by omega))), bind_ok (unlink_eq small chain)]
      rfl
    · rw [Run.starts_append]
      exact Chain.getLastD_mem _ _
    · rw [Run.starts_append]
      exact Chain.headD_mem _ _
    · rw [Run.starts_append]
      exact chain.unlinked small

end Absorb

section Release

variable {t : Table} {m : Arena} {r : Run}

theorem getD_above (m : Arena) (r : Run) :
    (((m.above r).map fun f => (r.size : Int) + f.size).getD r.size) =
      (Arena.join r (m.above r) none).size := by
  cases m.above r <;> simp [Arena.join]
  omega

theorem getD_below (m : Arena) (r : Run) :
    (((m.below r).map fun f => ((Arena.join r (m.above r) none).size : Int) + f.size).getD
      (Arena.join r (m.above r) none).size) =
        (Arena.join r (m.above r) (m.below r)).size := by
  cases m.below r <;> simp [Arena.join]

theorem start_join {u : Int} (there : ∀ f, m.above r = some f → (f.start : Int) = u) :
    (if ((m.above r).map fun f => (r.size : Int) + f.size).isSome then u else r.start) =
      (Arena.join r (m.above r) (m.below r)).start := by
  cases found : m.above r with
  | none => simp [Arena.join]
  | some f => simpa [Arena.join] using (there f found).symm

theorem absorb_above (h : t.Shows m) (hr : r ∈ m.used) {u : Int}
    (there : ∀ f, m.above r = some f → (f.start : Int) = u)
    (absent : m.above r = none → t.isFree u = .ok false) :
    ∃ t', absorb u r.size t = .ok ((m.above r).map fun f => (r.size : Int) + f.size) t' ∧
      Detached t t' (m.freeBesideAbove r) := by
  have inside := (h.used r hr).inside
  refine absorb_eq h.small h.chain h.free (h.sound.free_unique_stop r.start) there absent
    (by omega) fun f found => ?_
  have meet := Arena.stop_of_above found
  simp only [Run.stop] at meet inside
  omega

theorem absorb_below (h : t.Shows m) (hr : r ∈ m.used) {t₁ : Table}
    (links : Relinked (fun v => v ∈ head :: Run.starts m.free) t t₁)
    (chain : t₁.Chain (Run.starts (m.freeBesideAbove r))) :
    ∃ t', absorb r.stop (Arena.join r (m.above r) none).size t₁ =
        .ok ((m.below r).map fun f => ((Arena.join r (m.above r) none).size : Int) + f.size) t' ∧
      Detached t₁ t' (m.freeApart r) := by
  have mark := h.used r hr
  have find := Arena.find?_freeBesideAbove (m := m) mark.positive
  have sub : ∀ f ∈ m.freeBesideAbove r, f ∈ m.free := fun f hf => (List.mem_filter.1 hf).1
  rw [← find]
  refine absorb_eq (by rw [links.units]; exact h.small) chain (fun f hf => ?_)
    (fun a ha b hb => ?_) (fun f found => ?_) (fun none => ?_) (by omega) fun f found => ?_
  · exact (h.free f (sub f hf)).relinked links fun v hv =>
      clear_of_sound h.sound hv (Arena.mem_runs_of_free (sub f hf))
  · exact h.sound.free_unique_start r.stop a (sub a ha) b (sub b hb)
  · rw [find] at found
    rw [Arena.start_of_below found]
  · rw [find] at none
    rw [links.isFree_eq (mark.covers (by have := mark.bounds; omega) (Int.le_refl _))]
    exact h.isFree_stop hr none
  · rw [find] at found
    have meet := Arena.start_of_below found
    have fits := (h.free f (List.mem_of_find?_eq_some found)).inside
    have stop := Arena.stop_join_above m r
    rw [links.units]
    simp only [Run.stop] at *
    omega

theorem merge_eq (h : t.Shows m) (hr : r ∈ m.used) :
    ∃ t₁ t₂, Detached t t₁ (m.freeBesideAbove r) ∧ Detached t₁ t₂ (m.freeApart r) ∧
      merge r.start t = .ok ⟨r, (m.release r).1⟩
        (t₂.enlisted head (m.release r).1 ((Run.starts (m.freeApart r)).headD head)) ∧
      (t₂.enlisted head (m.release r).1 ((Run.starts (m.freeApart r)).headD head)).Shows
        (m.release r).2 := by
  have sound := h.sound.release hr
  have mark := h.used r hr
  have bounds := mark.bounds
  obtain ⟨u, before, there, absent⟩ := h.exists_runBefore hr
  obtain ⟨t₁, up, detached₁⟩ := h.absorb_above hr there absent
  have sub₁ : ∀ f ∈ m.freeBesideAbove r, f ∈ m.free := fun f hf => (List.mem_filter.1 hf).1
  have sub₂ : ∀ f ∈ m.freeApart r, f ∈ m.free := fun f hf => sub₁ f (List.mem_filter.1 hf).1
  have nodes {runs : List Run} (sub : ∀ f ∈ runs, f ∈ m.free) :
      ∀ v, v ∈ head :: Run.starts runs → v ∈ head :: Run.starts m.free := by
    intro v hv
    simp only [List.mem_cons, Run.mem_starts] at hv ⊢
    rcases hv with rfl | ⟨f, hf, start⟩
    · exact Or.inl rfl
    · exact Or.inr ⟨f, sub f hf, start⟩
  have links₁ := detached₁.relinked.mono (nodes sub₁)
  obtain ⟨t₂, down, detached₂⟩ := h.absorb_below hr links₁ detached₁.chain
  have links := links₁.trans (detached₂.relinked.mono (nodes sub₂))
  have keep {f : Run} {free : Bool} (hf : f ∈ m.runs) (marked : t.Marked f free) :
      t₂.Marked f free :=
    marked.relinked links fun v hv => clear_of_sound h.sound hv hf
  have small : t₂.units ≤ Word.maxUnits := by
    rw [links.units]
    exact h.small
  rw [Arena.release_eq] at sound ⊢
  obtain ⟨size, insert, shows'⟩ := enlist sound (links.units.trans h.units) small
    (h.guarded.relinked links) rfl detached₂.chain
    (fun f hf => keep (Arena.mem_runs_of_free (sub₂ f hf)) (h.free f (sub₂ f hf)))
    (fun f hf => by
      have hf := (List.mem_filter.1 hf).1
      exact keep (Arena.mem_runs_of_used hf) (h.used f hf))
  refine ⟨t₁, t₂, detached₁, detached₂, ?_, shows'⟩
  have below := h.small
  rw [merge, bind_ok (ask_ok (mark.size_eq h.small)), bind_ok (ask_ok before), bind_ok up,
    bind_ok (compute_ok (add_eq (by omega) (by omega))), ← bounds.1, getD_above, bind_ok down]
  simp only [start_join there, getD_below]
  rw [bind_ok size, bind_ok insert]
  rfl

theorem release (h : t.Shows m) (hr : r ∈ m.used) :
    ∃ t', merge r.start t = .ok ⟨r, (m.release r).1⟩ t' ∧ t'.Shows (m.release r).2 := by
  obtain ⟨_, _, -, -, merged, shows'⟩ := h.merge_eq hr
  exact ⟨_, merged, shows'⟩

end Release

end Shows

section Format

variable {units : Nat}

def bordered (units : Nat) : Table :=
  ((blank units).put head Word.sentinel).put units Word.sentinel

@[simp] theorem units_bordered : (bordered units).units = units := rfl

theorem word_bordered {v : Int} (hv : (blank units).Covers v) :
    (bordered units).word v =
      if v = units then Word.sentinel else if v = head then Word.sentinel
      else (blank units).word v := by
  have top : (blank units).Covers head := (blank units).covers_head
  have bottom : (blank units).Covers units := (blank units).covers_units
  rw [bordered, word_put (by simpa using bottom) (by simpa using hv), word_put top hv]

theorem word_bordered_head : (bordered units).word head = Word.sentinel := by
  rw [word_bordered (blank units).covers_head, if_pos rfl, ite_self]

theorem guarded_bordered : (bordered units).Guarded where
  top := by
    rw [word_bordered_head]
    exact ⟨rfl, rfl⟩
  bottom := by
    have bottom : (blank units).Covers units := (blank units).covers_units
    change SameMarks ((bordered units).word units) _
    rw [word_bordered bottom, if_pos rfl]
    exact ⟨rfl, rfl⟩

theorem linkAt_bordered_head {get : Word → Word} (small : units ≤ Word.maxUnits)
    (blank : Link.decode (get Word.sentinel) = head) :
    (bordered units).linkAt get head = .ok head := by
  rw [linkAt_of_covers small (bordered units).covers_head, word_bordered_head, blank]

theorem chain_bordered (small : units ≤ Word.maxUnits) :
    (bordered units).Chain (Run.starts []) where
  forward := linkAt_bordered_head small rfl
  backward := linkAt_bordered_head small rfl
  distinct := List.nodup_nil
  inside := by simp

def formatted (units : Nat) : Table :=
  if 0 < units then (bordered units).enlisted head ⟨0, units⟩ head else bordered units

theorem Shows.fresh (units : Nat) (small : units ≤ Word.maxUnits) :
    format units (blank units) = .ok () (formatted units) ∧
      (formatted units).Shows (Arena.fresh units) := by
  have top : setSentinel head (blank units) = .ok () ((blank units).put head Word.sentinel) :=
    setEntry_of_covers small (blank units).covers_head _
  have bottom : setSentinel units ((blank units).put head Word.sentinel) =
      .ok () (bordered units) := by
    have bottom : (blank units).Covers units := (blank units).covers_units
    exact setEntry_of_covers small (by simpa using bottom) _
  have sound := Arena.fresh_sound units
  rw [format, bind_ok top, bind_ok bottom, formatted]
  by_cases some : 0 < units
  · have list : (Arena.fresh units).free = ⟨0, units⟩ :: [] := if_neg (by omega)
    obtain ⟨size, insert, shows'⟩ := Shows.enlist sound rfl small guarded_bordered list
      (chain_bordered small) (by simp) (by simp [Arena.fresh])
    rw [if_pos some, if_pos some]
    exact ⟨(bind_ok size).trans insert, shows'⟩
  · have none : (Arena.fresh units).free = [] := if_pos (by omega)
    rw [if_neg some, if_neg some]
    refine ⟨rfl, ?_⟩
    exact {
      sound := sound
      units := rfl
      small := small
      guarded := guarded_bordered
      chain := by
        rw [none]
        exact chain_bordered small
      free := by simp [none]
      used := by simp [Arena.fresh] }

end Format

end FirstFit.Table

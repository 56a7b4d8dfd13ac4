import FirstFit.Proofs.Frames

namespace FirstFit

theorem Run.beyond_nothing (v : Int) : Run.Beyond ⟨0, 0⟩ v := by
  simp only [Beyond, stop]
  omega

namespace Table

structure Altered (nexts prevs frees : List Int) (s t : Table) : Prop where
  units : t.units = s.units
  next : ∀ v, s.Covers v → v ∉ nexts → (t.word v).nextField = (s.word v).nextField
  prev : ∀ v, s.Covers v → v ∉ prevs → (t.word v).prevField = (s.word v).prevField
  free : ∀ v, s.Covers v → v ∉ frees → (t.word v).isFree = (s.word v).isFree
  multi : ∀ v, s.Covers v → (t.word v).isMulti = (s.word v).isMulti

namespace Altered

variable {s t : Table} {nexts prevs frees : List Int} {p q u size : Int}

theorem of_rewired (h : Rewired ⟨0, 0⟩ (fun v => v ∈ nexts) (fun v => v ∈ prevs) s t) :
    Altered nexts prevs [] s t where
  units := h.units
  next := fun v hv => h.next v hv (Run.beyond_nothing v)
  prev := fun v hv => h.prev v hv (Run.beyond_nothing v)
  free := fun v hv _ => (h.marks v hv (Run.beyond_nothing v)).free
  multi := fun v hv => (h.marks v hv (Run.beyond_nothing v)).multi

theorem bypassed (small : t.units ≤ Word.maxUnits) (hp : t.Covers p) (hq : t.Covers q) :
    Altered [p] [q] [] t (t.bypassed p q) :=
  of_rewired (.bypassed small hp hq List.mem_cons_self List.mem_cons_self)

theorem spliced (small : t.units ≤ Word.maxUnits) (hp : t.Covers p) (hu : t.Covers u)
    (hq : t.Covers q) : Altered [u, p] [u, q] [] t (t.spliced p u q) :=
  of_rewired (.spliced small hp hu hq (by simp) (by simp) (by simp))

theorem after_freed (free : Bool) (low : 0 ≤ u) (positive : 1 ≤ size) (high : u + size ≤ s.units)
    (h : Altered nexts prevs [] (s.freed u size free) t) :
    Altered nexts prevs [u, u + size - 1] s t := by
  have covers {v : Int} (hv : s.Covers v) : (s.freed u size free).Covers v := by simpa using hv
  have word {v : Int} (hv : s.Covers v) : (s.freed u size free).word v =
      if v = u ∨ 1 < size ∧ v = u + size - 1 then Word.withFree free (s.word v) else s.word v :=
    word_freed (by omega) (by omega) ⟨by omega, by omega⟩ hv
  refine ⟨h.units.trans (units_freed ..), fun v hv out => ?_, fun v hv out => ?_,
    fun v hv out => ?_, fun v hv => ?_⟩
  · rw [h.next v (covers hv) out, word hv]
    split <;> simp
  · rw [h.prev v (covers hv) out, word hv]
    split <;> simp
  · simp only [List.mem_cons, List.not_mem_nil, or_false, not_or] at out
    rw [h.free v (covers hv) List.not_mem_nil, word hv, if_neg (by omega)]
  · rw [h.multi v (covers hv), word hv]
    split <;> simp

end Altered

section Removal

variable {s s' t : Table} {x y v : Int} {stops before after : List Int}

theorem Chain.erase_eq (h : t.Chain (before ++ x :: after)) :
    (before ++ x :: after).erase x = before ++ after := by
  have fresh : x ∉ before := fun there =>
    (List.nodup_append.1 h.distinct).2.2 x there x List.mem_cons_self rfl
  rw [List.erase_append_right _ fresh, List.erase_cons_head]

theorem unlink_of_mem (small : t.units ≤ Word.maxUnits) (h : t.Chain stops) (hx : x ∈ stops) :
    ∃ s, unlink x t = .ok () s ∧ s.Chain (stops.erase x) ∧
      Relinked (fun v => v ∈ head :: stops.erase x) t s := by
  obtain ⟨before, after, rfl⟩ := List.append_of_mem hx
  rw [h.erase_eq]
  exact ⟨_, unlink_eq small h, h.unlinked small, h.relinked_unlinked small⟩

theorem Chain.word_eq (small : t.units ≤ Word.maxUnits) (hs : s.Chain stops)
    (hs' : s'.Chain stops) {P : Int → Prop} (links : Relinked P t s) (links' : Relinked P t s')
    (hv : t.Covers v) (known : P v → v ∈ head :: stops) : s.word v = s'.word v := by
  by_cases changed : P v
  · have marks := (links.marks v hv).trans (links'.marks v hv).symm
    have covers := (covers_congr links.units v).2 hv
    have covers' := (covers_congr links'.units v).2 hv
    obtain ⟨next, prev⟩ := hs.links_eq hs' (known changed)
    exact word_eq_of_links (links.units ▸ small) (links'.units ▸ small) covers covers' marks
      next prev
  · rw [links.words v hv changed, links'.words v hv changed]

theorem unlink_two (small : t.units ≤ Word.maxUnits) (h : t.Chain stops) (hx : x ∈ stops)
    (hy : y ∈ stops) (ne : x ≠ y) :
    ∃ s, (do unlink x; unlink y) t = .ok () s ∧ s.Chain ((stops.erase x).erase y) ∧
      Relinked (fun v => v ∈ head :: stops) t s := by
  obtain ⟨s, first, chain, links⟩ := unlink_of_mem small h hx
  have hy' : y ∈ stops.erase x := (List.mem_erase_of_ne ne.symm).2 hy
  obtain ⟨s', second, chain', links'⟩ := unlink_of_mem (links.units ▸ small) chain hy'
  have sub : ∀ v, v ∈ head :: stops.erase x → v ∈ head :: stops := fun v hv =>
    List.cons_subset_cons head List.erase_subset hv
  have sub' : ∀ v, v ∈ head :: (stops.erase x).erase y → v ∈ head :: stops := fun v hv =>
    sub v (List.cons_subset_cons head List.erase_subset hv)
  exact ⟨s', (bind_ok first).trans second, chain', (links.mono sub).trans (links'.mono sub')⟩

theorem unlink_either_way (small : t.units ≤ Word.maxUnits) (h : t.Chain stops) (hx : x ∈ stops)
    (hy : y ∈ stops) (ne : x ≠ y) :
    ∃ s s', (do unlink x; unlink y) t = .ok () s ∧ (do unlink y; unlink x) t = .ok () s' ∧
      s.Chain ((stops.erase x).erase y) ∧ s'.Chain ((stops.erase x).erase y) ∧
      ∀ v, t.Covers v → v ≠ x → v ≠ y → s.word v = s'.word v := by
  obtain ⟨s, run, chain, links⟩ := unlink_two small h hx hy ne
  obtain ⟨s', run', chain', links'⟩ := unlink_two small h hy hx ne.symm
  rw [List.erase_comm] at chain'
  refine ⟨s, s', run, run', chain, chain', fun v hv notX notY => ?_⟩
  refine chain.word_eq small chain' links links' hv fun there => ?_
  rcases List.mem_cons.1 there with rfl | there
  · exact List.mem_cons_self
  · exact List.mem_cons_of_mem _
      ((List.mem_erase_of_ne notY).2 ((List.mem_erase_of_ne notX).2 there))

end Removal

section Insertion

variable {t : Table} {x size : Int} {stops : List Int}

theorem isFree_freed (small : t.units ≤ Word.maxUnits) (free : Bool) (low : 0 ≤ x)
    (positive : 1 ≤ size) (high : x + size ≤ t.units) {v : Int} (hv : v = x ∨ v = x + size - 1) :
    (t.freed x size free).isFree v = .ok free := by
  have covers : t.Covers v := ⟨by omega, by omega⟩
  rw [isFree_of_covers (by simpa using small) (by simpa using covers),
    word_freed (by omega) (by omega) ⟨by omega, by omega⟩ covers, if_pos (by omega),
    Word.isFree_withFree]

theorem insertFront_of_fresh (small : t.units ≤ Word.maxUnits) (h : t.Chain stops) (low : 0 ≤ x)
    (fresh : x ∉ stops) (known : t.size x = .ok size) (positive : 1 ≤ size)
    (high : x + size ≤ t.units) :
    ∃ s, insertFront x t = .ok () s ∧ s.Chain (x :: stops) ∧
      s.isFree x = .ok true ∧ s.isFree (x + size - 1) = .ok true ∧
      Altered [x, head] [x, stops.headD head] [x, x + size - 1] t s := by
  have links := links_freed (t := t) true low positive high
  have freed : (t.freed x size true).Chain stops :=
    h.congr (units_freed ..) (fun v _ => (links v).1) fun v _ => (links v).2
  have small' : (t.freed x size true).units ≤ Word.maxUnits := by simpa using small
  have top := freed.covers List.mem_cons_self
  have hx : (t.freed x size true).Covers x := ⟨by omega, by rw [units_freed]; omega⟩
  have front := freed.covers (Chain.headD_mem [] stops)
  have marked {v : Int} (hv : v = x ∨ v = x + size - 1) :
      ((t.freed x size true).spliced head x (stops.headD head)).isFree v = .ok true := by
    have covers : (t.freed x size true).Covers v := ⟨by omega, by rw [units_freed]; omega⟩
    rw [(relinked_spliced small' top hx front).isFree_eq covers]
    exact isFree_freed small true low positive high hv
  refine ⟨_, insertFront_eq small h low positive high known, ?_, marked (Or.inl rfl),
    marked (Or.inr rfl), ?_⟩
  · exact freed.spliced_front small' fresh ⟨low, by rw [units_freed]; omega⟩
  · exact .after_freed true low positive high (.spliced small' top hx front)

end Insertion

structure Operable (t : Table) (stops : List Int) : Prop where
  remove : ∀ before x after, stops = before ++ x :: after →
    ∃ s, unlink x t = .ok () s ∧ s.Chain (before ++ after) ∧
      Altered [before.getLastD head] [after.headD head] [] t s
  removeBoth : ∀ x ∈ stops, ∀ y ∈ stops, x ≠ y →
    ∃ s s', (do unlink x; unlink y) t = .ok () s ∧ (do unlink y; unlink x) t = .ok () s' ∧
      s.Chain ((stops.erase x).erase y) ∧ s'.Chain ((stops.erase x).erase y) ∧
      ∀ v, t.Covers v → v ≠ x → v ≠ y → s.word v = s'.word v
  insert : ∀ x size, 0 ≤ x → x ∉ stops → t.size x = .ok size → 1 ≤ size → x + size ≤ t.units →
    ∃ s, insertFront x t = .ok () s ∧ s.Chain (x :: stops) ∧
      s.isFree x = .ok true ∧ s.isFree (x + size - 1) = .ok true ∧
      Altered [x, head] [x, stops.headD head] [x, x + size - 1] t s

theorem operable_of_chain {t : Table} {stops : List Int} (small : t.units ≤ Word.maxUnits)
    (h : t.Chain stops) : t.Operable stops where
  remove := by
    rintro before x after rfl
    exact ⟨_, unlink_eq small h, h.unlinked small, .bypassed small h.covers_getLastD h.covers_headD⟩
  removeBoth := fun _ hx _ hy ne => unlink_either_way small h hx hy ne
  insert := fun _ _ low fresh known positive high =>
    insertFront_of_fresh small h low fresh known positive high

def linked (next prev : Int) (w : Word) : Word :=
  Word.withNext (Link.encode next) (Word.withPrev (Link.encode prev) w)

def tangled : Table where
  units := 5
  words := #v[linked 3 2 0, 0xdeadbeef, linked 2 3 0xffffffff, linked head 1 0x12345678,
    linked 1 head 0x80000000, 0xffffffff, 0x0badf00d]

theorem operable_tangled : tangled.units ≤ Word.maxUnits ∧ tangled.Chain [3, 1, 2] ∧
    tangled.size 0 = .ok 2 ∧ tangled.Operable [3, 1, 2] := by
  have chain : tangled.Chain [3, 1, 2] :=
    ⟨⟨rfl, rfl, rfl, rfl⟩, ⟨rfl, rfl, rfl, rfl⟩, by decide, by decide⟩
  exact ⟨by decide, chain, rfl, operable_of_chain (by decide) chain⟩

end Table

end FirstFit

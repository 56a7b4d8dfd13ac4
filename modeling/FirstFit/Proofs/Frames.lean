import FirstFit.Proofs.Effects
import FirstFit.Table.Agreement
import Mathlib.Data.List.Nodup
import Mathlib.Data.List.Perm.Subperm

namespace FirstFit

namespace Run

def Beyond (r : Run) (v : Int) : Prop := v < r.start ∨ r.stop ≤ v

def seams (r : Run) (size : Nat) : List Int :=
  [r.start, r.start + 1, r.start + size - 1, r.start + size, r.start + size + 1, r.stop - 1]

variable {r x : Run} {v : Int}

theorem Beyond.within (h : r.Beyond v) (within : x.Within r) : x.Beyond v := by
  simp only [Beyond, Within] at *
  omega

theorem within_refl (r : Run) : r.Within r := ⟨Nat.le_refl _, Nat.le_refl _⟩

theorem not_beyond_start (positive : 0 < x.size) (within : x.Within r) : ¬ r.Beyond x.start := by
  simp only [Beyond, Within, stop] at *
  omega

end Run

namespace Table

theorem mem_of_changed {s t : Table} {among : List Int} {v : Int} (hv : v ∈ changed s t)
    (same : ∀ v, s.Covers v → v ∉ among → t.word v = s.word v) : v ∈ among := by
  obtain ⟨hv, differ⟩ := mem_changed.1 hv
  exact Classical.byContradiction fun out => differ (same v hv out).symm

theorem length_changed_le {s t : Table} (among : List Int)
    (same : ∀ v, s.Covers v → v ∉ among → t.word v = s.word v) :
    (changed s t).length ≤ among.length := by
  have distinct : s.positions.Nodup :=
    List.Nodup.map (fun i j (same : (i : Int) - 1 = j - 1) => by omega) List.nodup_range
  exact (List.subperm_of_subset (distinct.filter _) fun v hv => mem_of_changed hv same).length_le

structure Rewired (x : Run) (P Q : Int → Prop) (s t : Table) : Prop where
  units : t.units = s.units
  marks : ∀ v, s.Covers v → x.Beyond v → SameMarks (t.word v) (s.word v)
  next : ∀ v, s.Covers v → x.Beyond v → ¬ P v → (t.word v).nextField = (s.word v).nextField
  prev : ∀ v, s.Covers v → x.Beyond v → ¬ Q v → (t.word v).prevField = (s.word v).prevField

namespace Rewired

variable {r s t : Table} {x y : Run} {P P' Q Q' R : Int → Prop} {p q u link : Int} {free : Bool}

theorem word_eq (h : Rewired x P Q s t) {v : Int} (hv : s.Covers v) (beyond : x.Beyond v)
    (outP : ¬ P v) (outQ : ¬ Q v) : t.word v = s.word v :=
  have marks := h.marks v hv beyond
  Word.eq_of_parts marks.free marks.multi (h.prev v hv beyond outQ) (h.next v hv beyond outP)

theorem of_words (units : t.units = s.units)
    (words : ∀ v, s.Covers v → x.Beyond v → t.word v = s.word v) : Rewired x P Q s t where
  units := units
  marks := fun v hv beyond => by
    rw [words v hv beyond]
    exact .refl _
  next := fun v hv beyond _ => by rw [words v hv beyond]
  prev := fun v hv beyond _ => by rw [words v hv beyond]

theorem of_relinked (h : Relinked R s t) (sub : ∀ v, x.Beyond v → R v → P v ∧ Q v) :
    Rewired x P Q s t where
  units := h.units
  marks := fun v hv _ => h.marks v hv
  next := fun v hv beyond out => by
    rw [h.words v hv fun inside => out (sub v beyond inside).1]
  prev := fun v hv beyond out => by
    rw [h.words v hv fun inside => out (sub v beyond inside).2]

theorem trans (first : Rewired x P Q r s) (second : Rewired x P Q s t) : Rewired x P Q r t where
  units := second.units.trans first.units
  marks := fun v hv beyond =>
    (second.marks v ((covers_congr first.units v).2 hv) beyond).trans (first.marks v hv beyond)
  next := fun v hv beyond out =>
    (second.next v ((covers_congr first.units v).2 hv) beyond out).trans (first.next v hv beyond out)
  prev := fun v hv beyond out =>
    (second.prev v ((covers_congr first.units v).2 hv) beyond out).trans (first.prev v hv beyond out)

theorem mono (h : Rewired y P Q s t) (within : y.Within x) (subP : ∀ v, P v → P' v)
    (subQ : ∀ v, Q v → Q' v) : Rewired x P' Q' s t where
  units := h.units
  marks := fun v hv beyond => h.marks v hv (beyond.within within)
  next := fun v hv beyond out =>
    h.next v hv (beyond.within within) fun inside => out (subP v inside)
  prev := fun v hv beyond out =>
    h.prev v hv (beyond.within within) fun inside => out (subQ v inside)

theorem ne_of_beyond {v : Int} (inside : x.Beyond u → P u) (beyond : x.Beyond v) (out : ¬ P v) :
    v ≠ u := by
  rintro rfl
  exact out (inside beyond)

theorem linkNext (small : t.units ≤ Word.maxUnits) (hu : t.Covers u) (hl : t.Covers link)
    (inside : x.Beyond u → P u) : Rewired x P Q t (t.linkNext u link) where
  units := rfl
  marks := fun _ hv _ => marks_linkBy Word.isField_next small hu hl hv
  next := fun _ hv beyond out =>
    congrArg Word.nextField (word_linkBy_of_ne hu hv (ne_of_beyond inside beyond out))
  prev := fun _ hv _ _ => rest_linkBy Word.isField_next small hu hl hv

theorem linkPrev (small : t.units ≤ Word.maxUnits) (hu : t.Covers u) (hl : t.Covers link)
    (inside : x.Beyond u → Q u) : Rewired x P Q t (t.linkPrev u link) where
  units := rfl
  marks := fun _ hv _ => marks_linkBy Word.isField_prev small hu hl hv
  next := fun _ hv _ _ => rest_linkBy Word.isField_prev small hu hl hv
  prev := fun _ hv beyond out =>
    congrArg Word.prevField (word_linkBy_of_ne hu hv (ne_of_beyond inside beyond out))

theorem freed (positive : 0 < y.size) (within : y.Within x) (inside : x.stop ≤ t.units) :
    Rewired x P Q t (t.freed y.start y.size free) := by
  have stop := y.cast_stop
  simp only [Run.Within] at within
  refine of_words (units_freed ..) fun v hv beyond => ?_
  simp only [Run.Beyond] at beyond
  exact word_freed_of_outside (by omega) (by omega) (by omega) hv (by omega)

theorem sized (positive : 0 < y.size) (within : y.Within x) (inside : x.stop ≤ t.units) :
    Rewired x P Q t (t.sized y.start y.size) := by
  have stop := y.cast_stop
  simp only [Run.Within] at within
  refine of_words (units_sized ..) fun v hv beyond => ?_
  simp only [Run.Beyond] at beyond
  exact word_sized_of_outside (by omega) (by omega) (by omega) hv (by omega)

theorem retagged (positive : 0 < y.size) (within : y.Within x) (inside : x.stop ≤ t.units) :
    Rewired x P Q t (t.retagged y.start y.size free) :=
  (sized positive within inside).trans (freed positive within (by simpa using inside))

theorem bypassed (small : t.units ≤ Word.maxUnits) (hp : t.Covers p) (hq : t.Covers q) (atP : P p)
    (atQ : Q q) : Rewired x P Q t (t.bypassed p q) :=
  (linkNext small hp hq fun _ => atP).trans (linkPrev small hq hp fun _ => atQ)

theorem spliced (small : t.units ≤ Word.maxUnits) (hp : t.Covers p) (hu : t.Covers u)
    (hq : t.Covers q) (inside : x.Beyond u → P u ∧ Q u) (atP : P p) (atQ : Q q) :
    Rewired x P Q t (t.spliced p u q) := by
  have back : Rewired x P Q t (t.linkPrev u p) :=
    linkPrev small hu hp fun beyond => (inside beyond).2
  have forth : Rewired x P Q t ((t.linkPrev u p).linkNext u q) :=
    back.trans (linkNext small hu hq fun beyond => (inside beyond).1)
  have entered : Rewired x P Q t (((t.linkPrev u p).linkNext u q).linkNext p u) :=
    forth.trans (linkNext small hp hu fun _ => atP)
  exact entered.trans (linkPrev small hq hu fun _ => atQ)

theorem enlisted (small : t.units ≤ Word.maxUnits) (positive : 0 < y.size) (within : y.Within x)
    (inside : x.stop ≤ t.units) (hp : t.Covers p) (hq : t.Covers q) (atP : P p) (atQ : Q q) :
    Rewired x P Q t (t.enlisted p y q) := by
  have start : t.Covers y.start := by
    simp only [Run.Within, Run.stop] at within inside
    exact ⟨by omega, by omega⟩
  refine (retagged positive within inside).trans (spliced ?_ ?_ ?_ ?_ ?_ atP atQ)
  · simpa using small
  · simpa using hp
  · simpa using start
  · simpa using hq
  · exact fun beyond => absurd beyond (Run.not_beyond_start positive within)

end Rewired

section Words

variable {t : Table} {x : Run} {p q v : Int} {free : Bool}

theorem word_freed_of_ne (positive : 0 < x.size) (inside : x.stop ≤ t.units) (hv : t.Covers v)
    (first : v ≠ x.start) (last : v ≠ x.stop - 1) :
    (t.freed x.start x.size free).word v = t.word v := by
  have stop := x.cast_stop
  rw [word_freed (by omega) (by omega) ⟨by omega, by omega⟩ hv, if_neg (by omega)]

theorem word_retagged_of_ne (positive : 0 < x.size) (inside : x.stop ≤ t.units) (hv : t.Covers v)
    (first : v ≠ x.start) (second : 1 < x.size → v ≠ x.start + 1) (last : v ≠ x.stop - 1) :
    (t.retagged x.start x.size free).word v = t.word v := by
  have stop := x.cast_stop
  rw [retagged, word_freed_of_ne positive (by simpa using inside) (by simpa using hv) first last,
    word_sized (by omega) (by omega) (by omega) hv, if_neg first, if_neg (by omega)]

theorem word_retagged_inside (low : x.start < v) (high : v < x.stop) (inside : x.stop ≤ t.units) :
    (t.retagged x.start x.size free).word v =
      if v = x.stop - 1 then Word.withFree free (Word.sizeTag x.size)
      else if v = x.start + 1 then Word.sizeTag x.size else t.word v := by
  have stop := x.cast_stop
  have hv : t.Covers v := ⟨by omega, by omega⟩
  rw [retagged, word_freed (by omega) (by rw [units_sized]; omega)
    ⟨by omega, by rw [units_sized]; omega⟩ (by simpa using hv),
    word_sized (by omega) (by omega) (by omega) hv]
  by_cases last : v = x.stop - 1
  · rw [if_pos last, if_pos (by omega), if_neg (by omega), if_pos (by omega)]
  · rw [if_neg last, if_neg (by omega), if_neg (by omega)]
    by_cases second : v = x.start + 1
    · rw [if_pos second, if_pos (by omega)]
    · rw [if_neg second, if_neg (by omega)]

theorem word_enlisted_of_ne (small : t.units ≤ Word.maxUnits) (positive : 0 < x.size)
    (inside : x.stop ≤ t.units) (hp : t.Covers p) (hq : t.Covers q) (hv : t.Covers v)
    (first : v ≠ x.start) (second : v ≠ x.start + 1) (last : v ≠ x.stop - 1) (atP : v ≠ p)
    (atQ : v ≠ q) : (t.enlisted p x q).word v = t.word v := by
  have stop := x.cast_stop
  have links : Relinked _ (t.retagged x.start x.size true) (t.enlisted p x q) :=
    relinked_spliced (by simpa using small) (by simpa using hp) ⟨by omega, by simp; omega⟩
      (by simpa using hq)
  rw [links.words v (by simpa using hv) (by simp [atP, first, atQ]),
    word_retagged_of_ne positive inside hv first (fun _ => second) last]

end Words

namespace Shows

variable {t t₁ t₂ : Table} {m : Arena} {r : Run}

section Taken

variable {size : Nat} {before after : List Run}

theorem beyond_of_around (h : t.Shows m) (split : m.free = before ++ r :: after) {v : Int}
    (hv : v ∈ head :: (Run.starts before ++ Run.starts after)) : r.Beyond v := by
  rcases List.mem_cons.1 hv with rfl | hv
  · left
    rw [head_eq]
    omega
  · rw [← Run.starts_append] at hv
    obtain ⟨f, hf, rfl⟩ := Run.mem_starts.1 hv
    have away := (h.sound.untouched split hf).2.2 f.start
    simp only [Run.Beyond]
    omega

theorem rewired_taken (h : t.Shows m) (split : m.free = before ++ r :: after) (positive : 0 < size)
    (fits : size ≤ r.size) :
    Rewired r (· = (Run.starts before).getLastD head) (· = (Run.starts after).headD head) t
      (t.taken (Run.starts before) (Run.starts after) r size) := by
  have marked := h.free r (by simp [split])
  have chain := h.chain_of_split split
  have above := chain.covers_getLastD
  have below := chain.covers_headD
  unfold taken
  by_cases less : size < r.size
  · rw [if_pos less]
    have rest : Rewired r (· = (Run.starts before).getLastD head)
        (· = (Run.starts after).headD head) t
        (t.restLeft (Run.starts before) (Run.starts after) r size) :=
      .enlisted h.small (remainder_positive less) (remainder_within r less) marked.inside above below
        rfl rfl
    have front : Run.Within ⟨r.start, size⟩ r := ⟨Nat.le_refl _, Nat.add_le_add_left fits _⟩
    exact rest.trans (.retagged positive front (by simpa using marked.inside))
  · rw [if_neg less]
    have gone : Rewired r (· = (Run.starts before).getLastD head)
        (· = (Run.starts after).headD head) t
        (t.unlinked (Run.starts before) (Run.starts after)) :=
      .bypassed h.small above below rfl rfl
    exact gone.trans (.freed marked.positive r.within_refl (by simpa using marked.inside))

theorem word_taken_of_not_mem (h : t.Shows m) (split : m.free = before ++ r :: after)
    (positive : 0 < size) (v : Int) (hv : t.Covers v)
    (out : v ∉ (Run.starts before).getLastD head :: (Run.starts after).headD head :: r.seams size) :
    (t.taken (Run.starts before) (Run.starts after) r size).word v = t.word v := by
  have marked := h.free r (by simp [split])
  have chain := h.chain_of_split split
  have bounds := marked.bounds
  simp only [Run.seams, List.mem_cons, List.not_mem_nil, or_false, not_or] at out
  obtain ⟨above, below, start, second, last, rest, restSecond, stop⟩ := out
  unfold taken
  by_cases less : size < r.size
  · have within := (remainder_within r less).2
    have restStart : ((remainder r size).start : Int) = r.start + size := by simp [remainder]
    have restStop := stop_remainder (Nat.le_of_lt less)
    have frontStop : (Run.stop ⟨r.start, size⟩ : Int) = r.start + size := Run.cast_stop _
    rw [if_pos less, word_retagged_of_ne (x := ⟨r.start, size⟩) positive
      (by simp only [units_restLeft]; omega) (by simpa [Covers] using hv) start (fun _ => second)
      (by omega)]
    exact word_enlisted_of_ne h.small (remainder_positive less) (by omega) chain.covers_getLastD
      chain.covers_headD hv (by omega) (by omega) (by omega) above below
  · have gone := relinked_bypassed h.small chain.covers_getLastD chain.covers_headD
    rw [if_neg less, word_freed_of_ne marked.positive (by simpa using marked.inside)
      (by simpa [Covers] using hv) start stop]
    exact gone.words v hv (by simp only [above, below, or_false, not_false_iff])

end Taken

section Released

theorem not_beyond_below (h : t.Shows m) (hr : r ∈ m.used) {f : Run} (hf : f ∈ m.free)
    (meet : f.start = r.stop) : ¬ (m.release r).1.Beyond f.start := by
  obtain ⟨g, found⟩ := Option.isSome_iff_exists.1
    (List.find?_isSome.2 ⟨f, hf, decide_eq_true meet⟩ : (m.below r).isSome)
  have found : m.below r = some g := found
  have start := Arena.start_of_below found
  have longer := (h.free g (List.mem_of_find?_eq_some found)).positive
  have within := (m.within_release r).1
  have positive := (h.used r hr).positive
  have stop : (m.release r).1.stop = g.stop := by
    rw [Arena.release_eq, Arena.stop_join, found]
    rfl
  simp only [Run.Beyond, Run.stop] at *
  omega

theorem mem_freeApart_of_beyond (h : t.Shows m) (hr : r ∈ m.used) {v : Int}
    (beyond : (m.release r).1.Beyond v) (hv : v ∈ head :: Run.starts (m.freeBesideAbove r)) :
    v ∈ head :: Run.starts (m.freeApart r) := by
  rcases List.mem_cons.1 hv with rfl | hv
  · exact List.mem_cons_self
  · obtain ⟨f, hf, rfl⟩ := Run.mem_starts.1 hv
    have fFree := (List.mem_filter.1 hf).1
    have apart : f.start ≠ r.stop := fun meet => h.not_beyond_below hr fFree meet beyond
    refine List.mem_cons_of_mem _ (Run.mem_starts.2 ⟨f, List.mem_filter.2 ⟨hf, ?_⟩, rfl⟩)
    simpa using apart

theorem whole_fits (h : t.Shows m) (hr : r ∈ m.used) :
    0 < (m.release r).1.size ∧ (m.release r).1.stop ≤ t.units := by
  have sound := h.sound.release hr
  have wholeIn := Arena.mem_runs_of_free (m.mem_free_release r)
  rw [h.units]
  exact ⟨sound.partition.positive _ wholeIn, sound.partition.below _ wholeIn⟩

theorem rewired_released (h : t.Shows m) (hr : r ∈ m.used)
    (first : Detached t t₁ (m.freeBesideAbove r)) (second : Detached t₁ t₂ (m.freeApart r)) :
    Rewired (m.release r).1 (· ∈ head :: Run.starts (m.freeApart r))
      (· ∈ head :: Run.starts (m.freeApart r)) t
      (t₂.enlisted head (m.release r).1 ((Run.starts (m.freeApart r)).headD head)) := by
  obtain ⟨positive, inside⟩ := h.whole_fits hr
  have units : t₂.units = t.units := second.relinked.units.trans first.relinked.units
  have one : Rewired (m.release r).1 (· ∈ head :: Run.starts (m.freeApart r))
      (· ∈ head :: Run.starts (m.freeApart r)) t t₁ :=
    .of_relinked first.relinked fun v beyond hv =>
      ⟨h.mem_freeApart_of_beyond hr beyond hv, h.mem_freeApart_of_beyond hr beyond hv⟩
  have two : Rewired (m.release r).1 (· ∈ head :: Run.starts (m.freeApart r))
      (· ∈ head :: Run.starts (m.freeApart r)) t₁ t₂ :=
    .of_relinked second.relinked fun v _ hv => ⟨hv, hv⟩
  refine (one.trans two).trans (.enlisted ?_ positive (Run.within_refl _) ?_ ?_ ?_ ?_ ?_)
  · rw [units]
    exact h.small
  · rw [units]
    exact inside
  · exact second.chain.covers List.mem_cons_self
  · exact second.chain.covers (Chain.headD_mem [] _)
  · exact List.mem_cons_self
  · exact Chain.headD_mem [] _

theorem length_changed_released (h : t.Shows m) (hr : r ∈ m.used)
    (first : Detached t t₁ (m.freeBesideAbove r)) (second : Detached t₁ t₂ (m.freeApart r)) :
    (changed t (t₂.enlisted head (m.release r).1
      ((Run.starts (m.freeApart r)).headD head))).length ≤ 9 := by
  obtain ⟨positive, inside⟩ := h.whole_fits hr
  have units : t₂.units = t.units := second.relinked.units.trans first.relinked.units
  obtain ⟨p, hp, q, hq, one⟩ := first.links
  obtain ⟨p', hp', q', hq', two⟩ := second.links
  have small : t₂.units ≤ Word.maxUnits := by
    rw [units]
    exact h.small
  rw [← units] at inside
  have top : t₂.Covers head := second.chain.covers List.mem_cons_self
  have below : t₂.Covers ((Run.starts (m.freeApart r)).headD head) :=
    second.chain.covers (Chain.headD_mem [] _)
  let whole := (m.release r).1
  refine length_changed_le [p, q, p', q', whole.start, whole.start + 1, whole.stop - 1, head,
    (Run.starts (m.freeApart r)).headD head] fun v hv out => ?_
  have hv₁ : t₁.Covers v := (covers_congr one.units v).2 hv
  have hv₂ : t₂.Covers v := (covers_congr two.units v).2 hv₁
  simp only [List.mem_cons, List.not_mem_nil, or_false, not_or] at out
  obtain ⟨atP, atQ, atP', atQ', start, next, last, atTop, atFront⟩ := out
  rw [word_enlisted_of_ne small positive inside top below hv₂ start next last atTop atFront,
    two.words v hv₁ (by simp only [atP', atQ', or_false, not_false_iff]),
    one.words v hv (by simp only [atP, atQ, or_false, not_false_iff])]

end Released

end Shows

end Table

end FirstFit

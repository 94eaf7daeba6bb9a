import Groundwork.Proofs.Dictionary
import Groundwork.Proofs.Fallible
import Groundwork.Proofs.Session.Numbering
import Groundwork.Session.Recording

/-!
# Tables of atoms from documents

A document lists the ground atoms of a table in their alphabetical order, and not in the order
of their numbers.  A table is still rebuilt from it: while the numbers come in, entries are left
open below the largest, and all of them are filled in the end.

* `exists_installLiterals`: distinct ground atoms with distinct numbers within bounds can all be
  recorded, in any order;
* `exists_installPredicates`: so can predicates that fit;
* `exists_ofDocument`: a table that is dense and sound, with predicates that fit, is rebuilt
  from what a document lists of it.
-/

namespace Groundwork.AtomTable

/-! ## Literals -/

/-- The induction is on the list.  The table that is filled is any that has none of the ground
atoms and none of the numbers. -/
theorem exists_installLiterals (count : Nat) (listed : List (String × Literal)) {t : AtomTable}
    (hsound : t.Sound)
    (hbounds : ∀ x ∈ listed, Literal.polarity x.2 = true ∧ 0 < Literal.atom x.2 ∧
      Literal.atom x.2 ≤ maxAtom ∧ Literal.atom x.2 ≤ count)
    (hatoms : (listed.map fun x => Literal.atom x.2).Nodup)
    (htexts : (listed.map Prod.fst).Nodup)
    (hfresh : ∀ x ∈ listed, t.get? x.1 = none ∧ t.entry? (Literal.atom x.2) = none) :
    ∃ u, listed.foldlM (installLiteral count) t = .ok u ∧ u.Sound ∧
      (∀ x ∈ listed, u.entry? (Literal.atom x.2) = some { text := x.1 }) ∧
      (∀ atom, atom ∉ (listed.map fun x => Literal.atom x.2) → u.entry? atom = t.entry? atom) ∧
      u.largest ≤ max t.largest count := by
  induction listed generalizing t with
  | nil => exact ⟨t, rfl, hsound, by simp, fun _ _ => rfl, Nat.le_max_left _ _⟩
  | cons x listed ih =>
    obtain ⟨hpolarity, hpos, hmax, hcount⟩ := hbounds x List.mem_cons_self
    obtain ⟨hget, hentry⟩ := hfresh x List.mem_cons_self
    obtain ⟨hatom, hatoms⟩ := List.nodup_cons.1 hatoms
    obtain ⟨htext, htexts⟩ := List.nodup_cons.1 htexts
    have hpositive : ¬ x.2 ≤ 0 := by
      rw [Int32.not_le]
      exact of_decide_eq_true hpolarity
    have hinsert := insertAt_eq_ok_iff.2 ⟨⟨hpos, hmax, hcount⟩, ⟨hget, hentry⟩, rfl⟩
    have hstep : installLiteral count t x = _ := (if_neg hpositive).trans hinsert
    obtain ⟨u, hrest, hu, hlisted, hother, hlargest⟩ := ih (hsound.insertAt hinsert)
      (fun y hy => hbounds y (List.mem_cons_of_mem _ hy)) hatoms htexts fun y hy => by
        obtain ⟨hget', hentry'⟩ := hfresh y (List.mem_cons_of_mem _ hy)
        have hatom' : Literal.atom y.2 ≠ Literal.atom x.2 := fun hsame =>
          hatom (List.mem_map.2 ⟨y, hy, hsame⟩)
        have htext' : y.1 ≠ x.1 := fun hsame => htext (List.mem_map.2 ⟨y, hy, hsame⟩)
        rw [get?_insertAt hinsert, entry?_insertAt hinsert, if_neg htext', if_neg hatom']
        exact ⟨hget', hentry'⟩
    refine ⟨u, by rw [List.foldlM_cons, hstep]; exact hrest, hu, fun y hy => ?_, fun atom hnot => ?_,
      ?_⟩
    · rcases List.mem_cons.1 hy with rfl | hy
      · rw [hother _ hatom, entry?_insertAt hinsert, if_pos rfl]
      · exact hlisted y hy
    · rw [List.map_cons, List.mem_cons, not_or] at hnot
      rw [hother atom hnot.2, entry?_insertAt hinsert, if_neg hnot.1]
    · rw [largest_insertAt hinsert] at hlargest
      omega

/-! ## Predicates -/

/-- A pairing that is given comes without a predicate, and had none before. -/
theorem predicateOf_insertAt {t u : AtomTable} (hsound : t.Sound) {text : String} {atom bound : Nat}
    (h : t.insertAt text atom bound = .ok u) (other : String) :
    u.predicateOf other = t.predicateOf other := by
  obtain ⟨_, ⟨hget, hentry⟩, _⟩ := insertAt_eq_ok_iff.1 h
  have hindex := get?_insertAt h other
  by_cases hsame : other = text
  · subst hsame
    rw [if_pos rfl] at hindex
    rw [predicateOf_eq_none hget]
    exact predicateOf_eq hindex ((entry?_insertAt h atom).trans (if_pos rfl))
  · rw [if_neg hsame] at hindex
    cases hother : t.get? other with
    | none => rw [predicateOf_eq_none hother, predicateOf_eq_none (hindex.trans hother)]
    | some number =>
      obtain ⟨entry, hold, _⟩ := hsound.exists_entry hother
      have hne : number ≠ atom := by
        rintro rfl
        rw [hentry] at hold
        cases hold
      have hnew : u.entry? number = some entry := by
        rw [entry?_insertAt h, if_neg hne, hold]
      rw [predicateOf_eq hother hold, predicateOf_eq (hindex.trans hother) hnew]

/-- A predicate is only recorded if it fits, and otherwise nothing happens. -/
theorem setPredicate_cases (t : AtomTable) (atom : Nat) (predicate : String) :
    t.setPredicate atom predicate = (false, t) ∨
      ∃ entry, t.entry? atom = some entry ∧ fits entry.text predicate = true := by
  unfold setPredicate
  cases hentry : t.entry? atom with
  | none => exact Or.inl rfl
  | some entry =>
    by_cases hfits : fits entry.text predicate = true
    · exact Or.inr ⟨entry, rfl, hfits⟩
    · exact Or.inl (if_neg hfits)

theorem predicateOf_setPredicate {t : AtomTable} (h : t.Sound) {text : String} {atom : Nat}
    (hget : t.get? text = some atom) {predicate : String} (hfits : fits text predicate = true)
    (other : String) :
    (t.setPredicate atom predicate).2.predicateOf other =
      if other = text then some predicate else t.predicateOf other := by
  have hindex : (t.setPredicate atom predicate).2.get? other = t.get? other := by
    rw [get?, setPredicate_index]
    rfl
  cases hother : t.get? other with
  | none =>
    have hne : other ≠ text := by
      rintro rfl
      rw [hother] at hget
      cases hget
    rw [predicateOf_eq_none hother, predicateOf_eq_none (hindex.trans hother), if_neg hne]
  | some number =>
    obtain ⟨entry, hentry, rfl⟩ := h.exists_entry hother
    have hset := entry?_setPredicate t atom predicate number
    rw [hentry, Option.map_some] at hset
    rw [predicateOf_eq hother hentry, predicateOf_eq (hindex.trans hother) hset]
    by_cases hsame : entry.text = text
    · have hnumber : number = atom := by
        rw [hsame, hget] at hother
        exact (Option.some.inj hother).symm
      rw [if_pos hsame, if_pos ⟨hnumber, hsame ▸ hfits⟩]
    · have hnumber : number ≠ atom := by
        rintro rfl
        exact hsame (h.text_injective hother hget)
      rw [if_neg hsame, if_neg fun hboth => hnumber hboth.1]

theorem installPredicate_eq_ok {t : AtomTable} {text predicate : String} {atom : Nat}
    (h : t.Sound) (hget : t.get? text = some atom) (hfits : fits text predicate = true) :
    installPredicate t (text, predicate) = .ok (t.setPredicate atom predicate).2 := by
  obtain ⟨entry, hentry, rfl⟩ := h.exists_entry hget
  have hset : (t.setPredicate atom predicate).1 = true := by
    unfold setPredicate
    rw [hentry]
    dsimp only
    rw [if_pos hfits]
  unfold installPredicate
  rw [hget]
  dsimp only
  cases hresult : t.setPredicate atom predicate with
  | mk answer u =>
    rw [hresult] at hset
    dsimp only at hset
    subst hset
    rfl

/-- The induction is on the list, over a table in which all of the ground atoms are known. -/
theorem exists_installPredicates (listed : List (String × String)) {t : AtomTable} (ht : t.Sound)
    (hlisted : ∀ x ∈ listed, (t.get? x.1).isSome ∧ fits x.1 x.2 = true)
    (htexts : (listed.map Prod.fst).Nodup) :
    ∃ u, listed.foldlM installPredicate t = .ok u ∧ u.Sound ∧ u.largest = t.largest ∧
      (∀ atom, u.text? atom = t.text? atom) ∧
      (∀ x ∈ listed, u.predicateOf x.1 = some x.2) ∧
      ∀ text, text ∉ listed.map Prod.fst → u.predicateOf text = t.predicateOf text := by
  induction listed generalizing t with
  | nil => exact ⟨t, rfl, ht, rfl, fun _ => rfl, by simp, fun _ _ => rfl⟩
  | cons x listed ih =>
    obtain ⟨hknown, hfits⟩ := hlisted x List.mem_cons_self
    obtain ⟨atom, hget⟩ := Option.isSome_iff_exists.1 hknown
    obtain ⟨htext, htexts⟩ := List.nodup_cons.1 htexts
    have hindex : ∀ other, (t.setPredicate atom x.2).2.get? other = t.get? other := by
      intro other
      rw [get?, setPredicate_index]
      rfl
    have hpredicate := predicateOf_setPredicate ht hget hfits
    obtain ⟨u, hrest, hu, hlargest, htext?, hnew, hold⟩ := ih (ht.setPredicate atom x.2)
      (fun y hy => by rw [hindex]; exact hlisted y (List.mem_cons_of_mem _ hy)) htexts
    refine ⟨u, ?_, hu, ?_, fun number => ?_, fun y hy => ?_, fun text hnot => ?_⟩
    · rw [List.foldlM_cons, installPredicate_eq_ok ht hget hfits]
      exact hrest
    · rw [hlargest, largest_setPredicate]
    · rw [htext?, text?_setPredicate]
    · rcases List.mem_cons.1 hy with rfl | hy
      · rw [hold _ htext, hpredicate, if_pos rfl]
      · exact hnew y hy
    · rw [List.map_cons, List.mem_cons, not_or] at hnot
      rw [hold text hnot.2, hpredicate, if_neg hnot.1]

/-! ## Both -/

/-- A table is known by its largest number and by the entries of its atoms. -/
theorem entries_eq {t u : AtomTable} (hlargest : u.largest = t.largest)
    (hentry : ∀ atom, u.entry? atom = t.entry? atom) : u.entries = t.entries := by
  refine Array.ext hlargest fun n hu ht => ?_
  have hn := hentry (n + 1)
  rw [entry?_succ, entry?_succ, Array.getElem?_eq_getElem hu, Array.getElem?_eq_getElem ht] at hn
  exact hn

theorem toList_eq {t u : AtomTable} (h : u.entries = t.entries) : u.toList = t.toList := by
  rw [toList, toList, h]

theorem text?_eq {t u : AtomTable} (h : u.entries = t.entries) (atom : Nat) :
    u.text? atom = t.text? atom := by
  cases atom with
  | zero => rfl
  | succ n => rw [text?, text?, entry?_succ, entry?_succ, h]

theorem Sound.get?_eq {t u : AtomTable} (ht : t.Sound) (hu : u.Sound)
    (h : u.entries = t.entries) (text : String) : u.get? text = t.get? text := by
  refine Option.ext fun atom => ?_
  rw [hu.get?_iff, ht.get?_iff, text?_eq h]

/-- The ground atoms of a table, as a document lists them. -/
def literals (t : AtomTable) : List (String × Literal) :=
  t.toList.map fun (atom, entry) => (entry.text, Literal.ofAtom atom true)

/-- The predicates of a table, as a document lists them. -/
def predicates (t : AtomTable) : List (String × String) :=
  t.toList.filterMap fun (_, entry) => entry.predicate.map (entry.text, ·)

theorem mem_predicates_iff {t : AtomTable} (h : t.Sound) {text predicate : String} :
    (text, predicate) ∈ t.predicates ↔ t.predicateOf text = some predicate := by
  rw [predicates, List.mem_filterMap]
  constructor
  · rintro ⟨⟨atom, entry⟩, hmem, hentry⟩
    obtain ⟨found, hfound, heq⟩ := Option.map_eq_some_iff.1 hentry
    cases heq
    rw [predicateOf_eq (h.get?_of_mem_toList hmem) (mem_toList_iff.1 hmem)]
    exact hfound
  · intro hpredicate
    obtain ⟨atom, hget, hfound⟩ := Option.bind_eq_some_iff.1 hpredicate
    obtain ⟨entry, hentry, rfl⟩ := h.exists_entry hget
    rw [predicate?, hentry, Option.bind_some] at hfound
    exact ⟨(atom, entry), mem_toList_iff.2 hentry, Option.map_eq_some_iff.2 ⟨_, hfound, rfl⟩⟩

/-- Sound tables with the same ground atoms and predicates have the same entries. -/
theorem Sound.entry?_eq {t u : AtomTable} (ht : t.Sound) (hu : u.Sound)
    (htext : ∀ atom, u.text? atom = t.text? atom)
    (hpredicate : ∀ text, u.predicateOf text = t.predicateOf text) (atom : Nat) :
    u.entry? atom = t.entry? atom := by
  refine Option.ext fun entry => ?_
  rw [hu.entry?_eq_some_iff, ht.entry?_eq_some_iff, htext, hpredicate]

theorem nodup_predicates {t : AtomTable}
    (h : (t.toList.map fun listed => listed.2.text).Nodup) :
    (t.predicates.map Prod.fst).Nodup := by
  refine List.pairwise_map.2 (List.pairwise_filterMap.2 ((List.pairwise_map.1 h).imp ?_))
  intro a b hne x hx y hy
  obtain ⟨_, _, rfl⟩ := Option.map_eq_some_iff.1 hx
  obtain ⟨_, _, rfl⟩ := Option.map_eq_some_iff.1 hy
  exact hne

section Installed

variable {t : AtomTable} (hsound : t.Sound) (hdense : t.Dense) (hle : t.largest ≤ maxAtom)

include hdense hle in
theorem map_atom_literals :
    t.literals.map (fun x => Literal.atom x.2) = List.range' 1 t.largest := by
  rw [← hdense.map_fst_toList, literals, List.map_map]
  refine List.map_congr_left fun listed hlisted => ?_
  obtain ⟨_, hatom⟩ := le_largest_of_entry? (mem_toList_iff.1 hlisted)
  exact Literal.atom_ofAtom (Nat.le_trans hatom hle) true

include hle in
theorem exists_entry_of_mem_literals {x : String × Literal} (h : x ∈ t.literals) :
    Literal.polarity x.2 = true ∧ 0 < Literal.atom x.2 ∧ Literal.atom x.2 ≤ t.largest ∧
      t.text? (Literal.atom x.2) = some x.1 := by
  obtain ⟨⟨atom, entry⟩, hmem, rfl⟩ := List.mem_map.1 h
  have hentry := mem_toList_iff.1 hmem
  obtain ⟨hpos, hatom⟩ := le_largest_of_entry? hentry
  have hmax := Nat.le_trans hatom hle
  dsimp only
  rw [Literal.atom_ofAtom hmax, Literal.polarity_ofAtom hpos hmax]
  exact ⟨rfl, hpos, hatom, text?_eq_some_iff.2 ⟨entry, hentry, rfl⟩⟩

include hsound hdense hle in
/-- The ground atoms come in with their numbers, and without predicates. -/
theorem exists_numbered {listed : List (String × Literal)} (hlisted : listed.Perm t.literals) :
    ∃ u, listed.foldlM (installLiteral listed.length) {} = .ok u ∧ u.Sound ∧
      u.largest = t.largest ∧ (∀ atom, u.text? atom = t.text? atom) ∧
      ∀ text, u.predicateOf text = none := by
  have hatoms := map_atom_literals hdense hle
  have htexts : t.literals.map Prod.fst = t.toList.map fun listed => listed.2.text :=
    List.map_map
  have hlength : listed.length = t.largest := by
    rw [hlisted.length_eq, ← List.length_map, hatoms, List.length_range']
  have hmem : ∀ atom, atom ∈ (listed.map fun x => Literal.atom x.2) ↔ 0 < atom ∧ atom ≤ t.largest := by
    intro atom
    rw [(hlisted.map _).mem_iff, hatoms, List.mem_range'_1]
    omega
  obtain ⟨u, hfold, hu, hnew, hother, hlargest⟩ := exists_installLiterals listed.length
    listed sound_empty
    (fun x hx => by
      obtain ⟨hpolarity, hpos, hatom, _⟩ := exists_entry_of_mem_literals hle (hlisted.mem_iff.1 hx)
      exact ⟨hpolarity, hpos, Nat.le_trans hatom hle, hlength ▸ hatom⟩)
    (((hlisted.map _).nodup_iff).2 (hatoms ▸ List.nodup_range' 1))
    (((hlisted.map _).nodup_iff).2 (htexts ▸ (hdense.exact hsound).texts_nodup))
    (fun x _ => ⟨Std.HashMap.getElem?_empty, by cases Literal.atom x.2 <;> rfl⟩)
  have hentry : ∀ atom, u.entry? atom = (t.text? atom).map fun text => { text } := by
    intro atom
    by_cases hatom : atom ∈ listed.map fun x => Literal.atom x.2
    · obtain ⟨x, hx, rfl⟩ := List.mem_map.1 hatom
      obtain ⟨_, _, _, htext⟩ := exists_entry_of_mem_literals hle (hlisted.mem_iff.1 hx)
      rw [hnew x hx, htext, Option.map_some]
    · have hnone : t.text? atom = none := by
        rw [text?, Option.map_eq_none_iff]
        refine Option.eq_none_iff_forall_ne_some.2 fun entry hentry => hatom ?_
        have hrange := le_largest_of_entry? hentry
        exact (hmem atom).2 hrange
      rw [hother atom hatom, hnone, Option.map_none]
      cases atom <;> rfl
  refine ⟨u, hfold, hu, ?_, fun atom => ?_, fun text => ?_⟩
  · refine Nat.le_antisymm (by rw [hlength] at hlargest; exact hlargest) ?_
    rcases Nat.eq_zero_or_pos t.largest with hzero | hpos
    · rw [hzero]
      exact Nat.zero_le _
    · obtain ⟨text, htext⟩ := Option.isSome_iff_exists.1 (hdense t.largest hpos (Nat.le_refl _))
      have hlast := hentry t.largest
      rw [htext, Option.map_some] at hlast
      obtain ⟨_, hlast⟩ := le_largest_of_entry? hlast
      exact hlast
  · rw [text?, hentry, Option.map_map]
    cases t.text? atom <;> rfl
  · refine Option.eq_none_iff_forall_ne_some.2 fun predicate hpredicate => ?_
    obtain ⟨atom, _, hfound⟩ := Option.bind_eq_some_iff.1 hpredicate
    rw [predicate?, hentry] at hfound
    cases htext : t.text? atom with
    | none =>
      rw [htext] at hfound
      cases hfound
    | some text =>
      rw [htext] at hfound
      cases hfound

include hsound hdense hle in
/-- A table is rebuilt from the lists of its ground atoms and predicates, in any order. -/
theorem exists_installed (hfitting : t.Fitting) {listed : List (String × Literal)}
    (hlisted : listed.Perm t.literals) {named : List (String × String)}
    (hnamed : named.Perm t.predicates) :
    ∃ numbered u, listed.foldlM (installLiteral listed.length) {} = .ok numbered ∧
      named.foldlM installPredicate numbered = .ok u ∧ u.Sound ∧ u.entries = t.entries := by
  obtain ⟨numbered, hfold, hnumbered, hlargest, htext, hnone⟩ :=
    exists_numbered hsound hdense hle hlisted
  have hmem : ∀ text predicate,
      (text, predicate) ∈ named ↔ t.predicateOf text = some predicate := by
    intro text predicate
    rw [hnamed.mem_iff, mem_predicates_iff hsound]
  obtain ⟨u, hpredicates, hu, hlargest', htext', hnew, hold⟩ := exists_installPredicates
    named hnumbered
    (fun x hx => by
      have hpredicate := (hmem x.1 x.2).1 hx
      obtain ⟨atom, hget, _⟩ := Option.bind_eq_some_iff.1 hpredicate
      rw [hsound.get?_iff, ← htext, ← hnumbered.get?_iff] at hget
      exact ⟨Option.isSome_iff_exists.2 ⟨atom, hget⟩, hfitting _ _ hpredicate⟩)
    (((hnamed.map _).nodup_iff).2 (nodup_predicates (hdense.exact hsound).texts_nodup))
  refine ⟨numbered, u, hfold, hpredicates, hu, entries_eq (hlargest'.trans hlargest) ?_⟩
  refine hsound.entry?_eq hu (fun atom => (htext' atom).trans (htext atom)) fun text => ?_
  by_cases hlist : text ∈ named.map Prod.fst
  · obtain ⟨⟨_, predicate⟩, hx, rfl⟩ := List.mem_map.1 hlist
    rw [hnew _ hx, (hmem _ predicate).1 hx]
  · rw [hold text hlist, hnone]
    refine (Option.eq_none_iff_forall_ne_some.2 fun predicate hpredicate => hlist ?_).symm
    exact List.mem_map.2 ⟨(text, predicate), (hmem text predicate).2 hpredicate, rfl⟩

end Installed

/-- A table is rebuilt from what a document records of it. -/
theorem exists_ofDocument {t : AtomTable} (hsound : t.Sound) (hdense : t.Dense)
    (hle : t.largest ≤ maxAtom) (hfitting : t.Fitting) {d : Document}
    (hliterals : d.literals = .ofList t.literals)
    (hpredicates : d.predicates = .ofList t.predicates) :
    ∃ u, ofDocument d = .ok u ∧ u.Sound ∧ u.entries = t.entries := by
  have htexts := (hdense.exact hsound).texts_nodup
  have hlisted : (Dictionary.ofList t.literals).entries.Perm t.literals := by
    refine Dictionary.perm_ofList ?_
    rw [literals, List.map_map]
    exact htexts
  obtain ⟨numbered, u, hnumbered, hnamed, hu, hentries⟩ := exists_installed hsound hdense hle
    hfitting hlisted (Dictionary.perm_ofList (nodup_predicates htexts))
  refine ⟨u, ?_, hu, hentries⟩
  unfold ofDocument
  rw [hliterals, hpredicates]
  exact Fallible.bind_eq_ok_iff.2 ⟨numbered, hnumbered, hnamed⟩

end Groundwork.AtomTable

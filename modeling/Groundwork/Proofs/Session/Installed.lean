import Groundwork.Proofs.AtomTable.Bijection
import Mathlib.Data.List.Perm.Subperm

/-!
# Documents from which a table of atoms is made

The entries of a document are installed one after the other, in the order of their strings.  Each
number is only compared with the count of the entries, and with the numbers that came before it.
If all of them pass, they are that many distinct numbers which are not above their count, so that
none is left out.

* `of_installLiterals`: what a table knows after its literals were installed;
* `perm_range'_of_installLiterals`: the numbers are those from one to their count;
* `ofDocument_eq_ok_iff`: which documents a table is made from;
* `literals_perm`, `predicates_perm`: what is listed of the table is what the document lists.
-/

namespace Groundwork

theorem Dictionary.nodup_keys {α : Type} (d : Dictionary α) : (d.entries.map Prod.fst).Nodup :=
  List.pairwise_map.2 (d.sorted.imp Std.ne_of_lt)

/-- Entries in any order make the dictionary that holds them. -/
theorem Dictionary.ofList_eq_of_perm {α : Type} {d : Dictionary α} {entries : List (String × α)}
    (h : entries.Perm d.entries) : ofList entries = d := by
  have hnodup : (entries.map Prod.fst).Nodup := (h.map Prod.fst).nodup_iff.2 d.nodup_keys
  have hperm := (perm_ofList hnodup).trans h
  have heq : (ofList entries).entries = d.entries := by
    refine hperm.eq_of_pairwise ?_ (ofList entries).sorted d.sorted
    intro a b _ _ hab hba
    exact absurd (String.lt_trans hab hba) (String.lt_irrefl _)
  cases d
  cases hofList : ofList entries
  rw [hofList] at heq
  cases heq
  rfl

/-- What a document says of the atoms: its literals are one for each string and exactly the
numbers from one to their count, and its predicates are the beginnings of strings that have a
literal. -/
structure Document.Numbered (d : Document) : Prop where
  distinct : (d.literals.entries.map Prod.snd).Nodup
  dense : ∀ n : Int, (∃ entry ∈ d.literals.entries, entry.2.toInt = n) ↔
    1 ≤ n ∧ n ≤ d.literals.size
  named : ∀ entry ∈ d.predicates.entries, entry.1 ∈ d.literals.entries.map Prod.fst ∧
    entry.2 ≠ "" ∧ (entry.1 = entry.2 ∨ entry.1.startsWith (entry.2 ++ " ") = true)

namespace AtomTable

variable {t u : AtomTable}

/-! ## Literals -/

theorem installLiteral_eq_ok_iff {count : Nat} {entry : String × Literal} :
    installLiteral count t entry = .ok u ↔
      0 < entry.2.toInt ∧ t.insertAt entry.1 (Literal.atom entry.2) count = .ok u := by
  have hzero : entry.2 ≤ 0 ↔ Int32.toInt entry.2 ≤ 0 := Int32.le_iff_toInt_le
  unfold installLiteral
  split
  · next hle =>
    have hnot := hzero.1 hle
    exact iff_of_false (by simp) fun h => by omega
  · next hle =>
    have hnot := mt hzero.2 hle
    exact (and_iff_right (by omega)).symm

theorem text?_insertAt {text : String} {atom bound : Nat}
    (h : t.insertAt text atom bound = .ok u) (other : Nat) :
    u.text? other = if other = atom then some text else t.text? other := by
  rw [text?, entry?_insertAt h]
  split <;> rfl

/-- The induction is on the list.  What was known before is kept, as a number is only given where
there was none. -/
theorem of_installLiterals {count : Nat} {listed : List (String × Literal)} (hsound : t.Sound)
    (h : listed.foldlM (installLiteral count) t = .ok u) :
    u.Sound ∧ (∀ entry ∈ listed, 0 < entry.2.toInt ∧ entry.2.toInt ≤ count) ∧
      (∀ atom text, u.text? atom = some text ↔ t.text? atom = some text ∨
        ∃ entry ∈ listed, Literal.atom entry.2 = atom ∧ entry.1 = text) ∧
      ∀ text, u.predicateOf text = t.predicateOf text := by
  induction listed generalizing t with
  | nil =>
    cases h
    exact ⟨hsound, by simp, by simp, fun _ => rfl⟩
  | cons first listed ih =>
    obtain ⟨v, hfirst, hrest⟩ := Fallible.bind_eq_ok_iff.1 h
    obtain ⟨hpos, hinsert⟩ := installLiteral_eq_ok_iff.1 hfirst
    obtain ⟨⟨_, _, hcount⟩, ⟨_, hnone⟩, _⟩ := insertAt_eq_ok_iff.1 hinsert
    obtain ⟨hu, hbounds, htext, hpredicate⟩ := ih (hsound.insertAt hinsert) hrest
    refine ⟨hu, ?_, fun atom text => ?_, fun text => ?_⟩
    · refine List.forall_mem_cons.2 ⟨⟨hpos, ?_⟩, hbounds⟩
      rw [Literal.atom] at hcount
      omega
    · rw [htext, text?_insertAt hinsert]
      simp only [List.exists_mem_cons_iff]
      by_cases hsame : atom = Literal.atom first.2
      · have hold : t.text? atom = none := by rw [hsame, text?, hnone, Option.map_none]
        rw [if_pos hsame, hold]
        simp [hsame]
      · rw [if_neg hsame]
        simp [Ne.symm hsame]
    · rw [hpredicate, predicateOf_insertAt hsound hinsert]

theorem atom_injOn {l l' : Literal} (hl : 0 < l.toInt) (hl' : 0 < l'.toInt)
    (h : Literal.atom l = Literal.atom l') : l = l' := by
  rw [Literal.atom, Literal.atom] at h
  exact Int32.toInt_inj.1 (by omega)

section Counting

variable {listed : List (String × Literal)} (htexts : (listed.map Prod.fst).Nodup)
  (h : listed.foldlM (installLiteral listed.length) {} = .ok u)

include h in
theorem text?_installed {atom : Nat} {text : String} :
    u.text? atom = some text ↔ ∃ entry ∈ listed, Literal.atom entry.2 = atom ∧ entry.1 = text := by
  rw [(of_installLiterals sound_empty h).2.2.1]
  refine or_iff_right fun hempty => ?_
  cases atom <;> cases hempty

include htexts h in
/-- No number is met twice, since it would belong to two strings. -/
theorem nodup_of_installLiterals : (listed.map fun entry => Literal.atom entry.2).Nodup := by
  refine htexts.of_map.map_on fun entry hentry other hother hsame => ?_
  obtain ⟨_, hbounds, _⟩ := of_installLiterals sound_empty h
  have htext : entry.1 = other.1 := by
    have hfirst := (text?_installed h).2 ⟨entry, hentry, rfl, rfl⟩
    rw [(text?_installed h).2 ⟨other, hother, hsame.symm, rfl⟩, Option.some.injEq] at hfirst
    exact hfirst.symm
  exact Prod.ext htext (atom_injOn (hbounds entry hentry).1 (hbounds other hother).1 hsame)

include htexts h in
/-- Distinct numbers from one to their count are all of these numbers. -/
theorem perm_range'_of_installLiterals :
    (listed.map fun entry => Literal.atom entry.2).Perm (List.range' 1 listed.length) := by
  obtain ⟨_, hbounds, _⟩ := of_installLiterals sound_empty h
  have hrange : (listed.map fun entry => Literal.atom entry.2) ⊆ List.range' 1 listed.length := by
    intro atom hatom
    obtain ⟨entry, hentry, rfl⟩ := List.mem_map.1 hatom
    have hbound := hbounds entry hentry
    rw [List.mem_range'_1, Literal.atom]
    omega
  refine (List.subperm_of_subset (nodup_of_installLiterals htexts h) hrange).perm_of_length_le ?_
  rw [List.length_range', List.length_map]

end Counting

/-! ## Predicates -/

theorem fits_iff_startsWith {text predicate : String} :
    fits text predicate = true ↔
      predicate ≠ "" ∧ (text = predicate ∨ text.startsWith (predicate ++ " ") = true) := by
  have hspace : (predicate ++ " ").toList = predicate.toList ++ [' '] := String.toList_append
  rw [fits_iff, List.prefix_concat_iff, List.append_left_inj, String.toList_inj, eq_comm,
    String.startsWith_string_iff, hspace]

theorem get?_setPredicate (t : AtomTable) (atom : Nat) (predicate text : String) :
    (t.setPredicate atom predicate).2.get? text = t.get? text := by
  rw [get?, setPredicate_index]
  rfl

theorem fits_of_installPredicate {entry : String × String} (hsound : t.Sound)
    (h : installPredicate t entry = .ok u) :
    (t.get? entry.1).isSome ∧ fits entry.1 entry.2 = true ∧ u.Sound ∧
      ∀ text, u.get? text = t.get? text := by
  unfold installPredicate at h
  split at h
  · cases h
  · next atom hget =>
    have hkept := hsound.setPredicate atom entry.2
    have hindex := get?_setPredicate t atom entry.2
    split at h
    · next hset =>
      cases h
      rw [hset] at hkept hindex
      refine ⟨hget ▸ rfl, ?_, hkept, hindex⟩
      rcases setPredicate_cases t atom entry.2 with hfalse | ⟨found, hfound, hfits⟩
      · rw [hset] at hfalse
        cases hfalse
      · obtain ⟨known, hknown, htext⟩ := hsound.exists_entry hget
        rw [hknown, Option.some.injEq] at hfound
        rwa [← hfound, htext] at hfits
    · cases h

theorem fits_of_installPredicates {listed : List (String × String)} (hsound : t.Sound)
    (h : listed.foldlM installPredicate t = .ok u) :
    ∀ entry ∈ listed, (t.get? entry.1).isSome ∧ fits entry.1 entry.2 = true := by
  induction listed generalizing t with
  | nil => simp
  | cons first listed ih =>
    obtain ⟨v, hfirst, hrest⟩ := Fallible.bind_eq_ok_iff.1 h
    obtain ⟨hknown, hfits, hv, hindex⟩ := fits_of_installPredicate hsound hfirst
    refine List.forall_mem_cons.2 ⟨⟨hknown, hfits⟩, fun entry hentry => ?_⟩
    rw [← hindex]
    exact ih hv hrest entry hentry

/-! ## Both -/

/-- The table has the atoms and the predicates of the document, and no others. -/
structure Installed (d : Document) (t : AtomTable) : Prop where
  sound : t.Sound
  text?_iff : ∀ atom text, t.text? atom = some text ↔
    ∃ entry ∈ d.literals.entries, Literal.atom entry.2 = atom ∧ entry.1 = text
  predicateOf_iff : ∀ text predicate, t.predicateOf text = some predicate ↔
    (text, predicate) ∈ d.predicates.entries

variable {d : Document}

theorem predicateOf_empty (text : String) : ({} : AtomTable).predicateOf text = none :=
  predicateOf_eq_none Std.HashMap.getElem?_empty

theorem isSome_get?_installed {listed : List (String × Literal)}
    (h : listed.foldlM (installLiteral listed.length) {} = .ok u) (text : String) :
    (u.get? text).isSome ↔ text ∈ listed.map Prod.fst := by
  have hsound := (of_installLiterals sound_empty h).1
  rw [Option.isSome_iff_exists, List.mem_map]
  constructor
  · rintro ⟨atom, hget⟩
    obtain ⟨entry, hentry, _, htext⟩ := (text?_installed h).1 ((hsound.get?_iff _ _).1 hget)
    exact ⟨entry, hentry, htext⟩
  · rintro ⟨entry, hentry, htext⟩
    exact ⟨_, (hsound.get?_iff _ _).2 ((text?_installed h).2 ⟨entry, hentry, rfl, htext⟩)⟩

theorem installed_of_ofDocument (h : ofDocument d = .ok t) : t.Installed d ∧ d.Numbered := by
  obtain ⟨u, hliterals, hpredicates⟩ := Fallible.bind_eq_ok_iff.1 h
  obtain ⟨hu, hbounds, _, hnone⟩ := of_installLiterals sound_empty hliterals
  have hfits := fits_of_installPredicates hu hpredicates
  obtain ⟨v, hv, hsound, _, htext, hnew, hold⟩ :=
    exists_installPredicates d.predicates.entries hu hfits d.predicates.nodup_keys
  rw [hpredicates] at hv
  cases hv
  have hperm := perm_range'_of_installLiterals d.literals.nodup_keys hliterals
  refine ⟨⟨hsound, fun atom text => ?_, fun text predicate => ?_⟩, ⟨?_, fun n => ?_, ?_⟩⟩
  · rw [htext, text?_installed hliterals]
  · by_cases hlisted : text ∈ d.predicates.entries.map Prod.fst
    · obtain ⟨entry, hentry, rfl⟩ := List.mem_map.1 hlisted
      rw [hnew entry hentry, Option.some.injEq]
      constructor
      · rintro rfl
        exact hentry
      · intro hother
        have hsame := List.inj_on_of_nodup_map d.predicates.nodup_keys hentry hother rfl
        rw [hsame]
    · rw [hold text hlisted, hnone, predicateOf_empty]
      refine iff_of_false (by simp) fun hentry => hlisted ?_
      exact List.mem_map.2 ⟨_, hentry, rfl⟩
  · have hnodup : ((d.literals.entries.map Prod.snd).map Literal.atom).Nodup := by
      rw [List.map_map]
      exact nodup_of_installLiterals d.literals.nodup_keys hliterals
    exact hnodup.of_map
  · constructor
    · rintro ⟨entry, hentry, rfl⟩
      exact hbounds entry hentry
    · intro hn
      have hmem : n.toNat ∈ d.literals.entries.map fun entry => Literal.atom entry.2 := by
        refine hperm.mem_iff.2 (List.mem_range'_1.2 ?_)
        have hsize : d.literals.size = d.literals.entries.length := rfl
        omega
      obtain ⟨entry, hentry, hatom⟩ := List.mem_map.1 hmem
      have hpos := (hbounds entry hentry).1
      rw [Literal.atom] at hatom
      exact ⟨entry, hentry, by omega⟩
  · intro entry hentry
    obtain ⟨hknown, hfit⟩ := hfits entry hentry
    exact ⟨(isSome_get?_installed hliterals _).1 hknown, fits_iff_startsWith.1 hfit⟩

/-- The numbers of such a document can be recorded in the order in which they come. -/
theorem exists_ofDocument_of_numbered (h : d.Numbered) : ∃ t, ofDocument d = .ok t := by
  have hbounds : ∀ entry ∈ d.literals.entries,
      0 < entry.2.toInt ∧ entry.2.toInt ≤ d.literals.size := fun entry hentry =>
    (h.dense _).1 ⟨entry, hentry, rfl⟩
  have hnodup : (d.literals.entries.map fun entry => Literal.atom entry.2).Nodup := by
    refine d.literals.nodup_keys.of_map.map_on fun entry hentry other hother hsame => ?_
    have hliteral := atom_injOn (hbounds entry hentry).1 (hbounds other hother).1 hsame
    exact List.inj_on_of_nodup_map h.distinct hentry hother hliteral
  obtain ⟨u, hliterals, hu, _⟩ := exists_installLiterals d.literals.size d.literals.entries
    sound_empty
    (fun entry hentry => by
      have hbound := hbounds entry hentry
      have hpositive : (0 : Literal) < entry.2 := Int32.lt_iff_toInt_lt.2 hbound.1
      have hword := entry.2.toInt_lt
      rw [Literal.polarity, Literal.atom, maxAtom, decide_eq_true_eq]
      exact ⟨hpositive, by omega, by omega, by omega⟩)
    hnodup d.literals.nodup_keys
    (fun entry _ => ⟨Std.HashMap.getElem?_empty, by cases Literal.atom entry.2 <;> rfl⟩)
  obtain ⟨t, hpredicates, _⟩ := exists_installPredicates d.predicates.entries hu
    (fun entry hentry => by
      obtain ⟨hlisted, hfits⟩ := h.named entry hentry
      exact ⟨(isSome_get?_installed hliterals _).2 hlisted, fits_iff_startsWith.2 hfits⟩)
    d.predicates.nodup_keys
  exact ⟨t, Fallible.bind_eq_ok_iff.2 ⟨u, hliterals, hpredicates⟩⟩

theorem exists_ofDocument_iff : (∃ t, ofDocument d = .ok t) ↔ d.Numbered :=
  ⟨fun ⟨_, h⟩ => (installed_of_ofDocument h).2, exists_ofDocument_of_numbered⟩

section Listed

variable (h : t.Installed d) (hnumbered : d.Numbered)

include h hnumbered in
theorem Installed.names_iff (l : Literal) :
    t.Names l ↔ 1 ≤ Literal.atom l ∧ Literal.atom l ≤ d.literals.size := by
  have hdense := hnumbered.dense (Literal.atom l)
  constructor
  · intro hname
    obtain ⟨text, htext⟩ := Option.isSome_iff_exists.1 hname
    obtain ⟨entry, hentry, hatom, _⟩ := (h.text?_iff _ _).1 htext
    have hpos := (hnumbered.dense entry.2.toInt).1 ⟨entry, hentry, rfl⟩
    have hvalue : entry.2.toInt = Literal.atom l := by
      rw [← hatom, Literal.atom]
      omega
    have hbound := hdense.1 ⟨entry, hentry, hvalue⟩
    omega
  · intro hbound
    obtain ⟨entry, hentry, hvalue⟩ := hdense.2 (by omega)
    have hatom : Literal.atom entry.2 = Literal.atom l := by
      rw [Literal.atom, hvalue]
      exact Int.natAbs_natCast _
    exact Option.isSome_iff_exists.2 ⟨_, (h.text?_iff _ _).2 ⟨entry, hentry, hatom, rfl⟩⟩

theorem ofAtom_atom_of_pos {l : Literal} (hpos : 0 < l.toInt) :
    Literal.ofAtom (Literal.atom l) true = l := by
  have hpolarity : Literal.polarity l = true := decide_eq_true (Int32.lt_iff_toInt_lt.2 hpos)
  have hword := l.toInt_lt
  have hmax : Literal.atom l ≤ maxAtom := by
    rw [Literal.atom, maxAtom]
    omega
  rw [← hpolarity, Literal.ofAtom_atom hmax]

include h hnumbered in
theorem Installed.literals_perm : t.literals.Perm d.literals.entries := by
  have htexts : (t.literals.map Prod.fst).Nodup := by
    rw [literals, List.map_map]
    exact h.sound.nodup_texts
  have hpos : ∀ entry ∈ d.literals.entries, 0 < entry.2.toInt := fun entry hentry => by
    have hbound := (hnumbered.dense entry.2.toInt).1 ⟨entry, hentry, rfl⟩
    omega
  refine (List.perm_ext_iff_of_nodup htexts.of_map d.literals.nodup_keys.of_map).2 fun entry => ?_
  constructor
  · intro hmem
    obtain ⟨⟨atom, known⟩, hlisted, rfl⟩ := List.mem_map.1 hmem
    have htext := text?_eq_some_iff.2 ⟨known, mem_toList_iff.1 hlisted, rfl⟩
    obtain ⟨⟨text, l⟩, hentry, rfl, rfl⟩ := (h.text?_iff _ _).1 htext
    show (known.text, Literal.ofAtom (Literal.atom l) true) ∈ d.literals.entries
    rw [ofAtom_atom_of_pos (hpos _ hentry)]
    exact hentry
  · intro hentry
    have htext := (h.text?_iff _ _).2 ⟨entry, hentry, rfl, rfl⟩
    obtain ⟨known, hknown, hsame⟩ := text?_eq_some_iff.1 htext
    refine List.mem_map.2 ⟨(Literal.atom entry.2, known), mem_toList_iff.2 hknown, ?_⟩
    exact Prod.ext hsame (ofAtom_atom_of_pos (hpos entry hentry))

include h in
theorem Installed.predicates_perm : t.predicates.Perm d.predicates.entries := by
  have hnodup := (nodup_predicates h.sound.nodup_texts).of_map
  refine (List.perm_ext_iff_of_nodup hnodup d.predicates.nodup_keys.of_map).2 fun entry => ?_
  rw [mem_predicates_iff h.sound, h.predicateOf_iff]

end Listed

end AtomTable

end Groundwork

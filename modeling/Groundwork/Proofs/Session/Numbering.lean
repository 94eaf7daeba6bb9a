import Groundwork.Proofs.Session.Growing

/-!
# Which numbers atoms have

A table of atoms is *dense* if it leaves no number out up to the largest.  Numbers are only
ever handed out in order, and taken back from the largest on, so every session has a dense
table, whatever its backend answers and whether or not its operations fail.

* `Dense.size_eq`: a table that is dense and sound holds as many ground atoms as its largest
  number says, and `Dense.exact` spells out what this means for the list of its atoms;
* `Coherent.atoms_after`: what any operation does to the table of a session;
* `Coherent.dense_run`: so the table stays dense.
-/

namespace Groundwork

namespace AtomTable

variable {t : AtomTable}

/-! ## Dense tables -/

/-- Every number up to the largest has a ground atom. -/
def Dense (t : AtomTable) : Prop :=
  ∀ atom, 0 < atom → atom ≤ t.largest → (t.text? atom).isSome

theorem dense_empty : Dense {} := by
  intro atom hpos hle
  have hzero : atom ≤ 0 := hle
  omega

theorem Dense.record (h : t.Dense) (text : String) : (t.record text).Dense := by
  intro atom hpos hle
  rw [largest_record] at hle
  rw [text?, entry?_record]
  split
  · rfl
  · next hold =>
    refine h atom hpos ?_
    cases hget : t.get? text with
    | some _ => simpa [hget] using hle
    | none =>
      simp only [hget, true_and] at hold
      simp only [hget, Option.isSome_none, Bool.false_eq_true, if_false] at hle
      omega

theorem text?_adoptPredicate (t : AtomTable) (atom : Nat) (predicates : List String)
    (other : Nat) : (t.adoptPredicate atom predicates).text? other = t.text? other := by
  rcases adoptPredicate_eq t atom predicates with heq | ⟨predicate, heq⟩
  · rw [heq]
  · rw [heq, text?_setPredicate]

theorem Dense.meet (h : t.Dense) (m : Mention) : (t.meet m).Dense := by
  intro atom hpos hle
  rw [AtomTable.meet, largest_adoptPredicate] at hle
  rw [AtomTable.meet, text?_adoptPredicate]
  exact h.record m.text atom hpos hle

theorem Dense.meetAll (h : t.Dense) (mentions : List Mention) : (t.meetAll mentions).Dense := by
  induction mentions generalizing t with
  | nil => exact h
  | cons m mentions ih => exact ih (h.meet m)

theorem Dense.rollback (h : t.Dense) (bound : Nat) : (t.rollback bound).Dense := by
  intro atom hpos hle
  rw [largest_rollback] at hle
  rw [text?, entry?_rollback, if_pos (by omega)]
  exact h atom hpos (by omega)

/-! ## The list of atoms -/

theorem mem_toList_iff {atom : Nat} {entry : AtomEntry} :
    (atom, entry) ∈ t.toList ↔ t.entry? atom = some entry := by
  rw [toList, List.mem_filterMap]
  constructor
  · intro h
    obtain ⟨⟨stored, number⟩, hmem, hentry⟩ := h
    obtain ⟨stored, rfl, heq⟩ := Option.map_eq_some_iff.1 hentry
    cases heq
    obtain ⟨hpos, hlt, hstored⟩ := List.mem_zipIdx hmem
    obtain ⟨n, rfl⟩ := Nat.exists_eq_add_of_le' hpos
    rw [entry?_succ, Option.join_eq_some_iff, ← Array.getElem?_toList, List.getElem?_eq_some_iff]
    exact ⟨_, hstored.symm⟩
  · intro h
    cases atom with
    | zero => cases h
    | succ n =>
      rw [entry?_succ, Option.join_eq_some_iff, ← Array.getElem?_toList] at h
      refine ⟨(some entry, n + 1), ?_, rfl⟩
      rw [List.mem_iff_getElem?]
      exact ⟨n, by rw [List.getElem?_zipIdx, h, Option.map_some, Nat.add_comm]⟩

theorem Dense.map_fst_toList (h : t.Dense) : t.toList.map Prod.fst = List.range' 1 t.largest := by
  have hall : ∀ x ∈ t.entries.toList.zipIdx 1,
      Option.map Prod.fst (x.1.map (x.2, ·)) = (some ∘ Prod.snd) x := by
    intro x hx
    obtain ⟨stored, number⟩ := x
    obtain ⟨hpos, hlt, hstored⟩ := List.mem_zipIdx hx
    obtain ⟨n, rfl⟩ := Nat.exists_eq_add_of_le' hpos
    have hn : n < t.entries.toList.length := by omega
    have hsome := h (n + 1) hpos hn
    rw [text?, Option.isSome_map, entry?_succ, ← Array.getElem?_toList,
      List.getElem?_eq_getElem hn, Option.join_some] at hsome
    obtain ⟨entry, hentry⟩ := Option.isSome_iff_exists.1 hsome
    rw [show stored = some entry from hstored.trans hentry]
    rfl
  rw [toList, List.map_filterMap, List.filterMap_congr hall, List.filterMap_eq_map,
    List.zipIdx_map_snd]
  rfl

/-- The numbers of the ground atoms in the index, in its order. -/
def numbers (t : AtomTable) : List Nat :=
  t.index.keys.map fun text => (t.get? text).getD 0

theorem mem_keys_iff {text : String} :
    text ∈ t.index.keys ↔ ∃ atom, t.get? text = some atom := by
  rw [Std.HashMap.mem_keys, ← Std.HashMap.isSome_getElem?_iff_mem, Option.isSome_iff_exists]
  rfl

theorem mem_numbers_iff {atom : Nat} :
    atom ∈ t.numbers ↔ ∃ text, t.get? text = some atom := by
  simp only [numbers, List.mem_map, mem_keys_iff]
  constructor
  · rintro ⟨text, ⟨number, hget⟩, rfl⟩
    exact ⟨text, by rw [hget, Option.getD_some]⟩
  · rintro ⟨text, hget⟩
    exact ⟨text, ⟨atom, hget⟩, by rw [hget, Option.getD_some]⟩

theorem Sound.nodup_numbers (h : t.Sound) : t.numbers.Nodup := by
  refine Std.HashMap.nodup_keys.map_on fun text htext other hother hsame => ?_
  obtain ⟨atom, hget⟩ := mem_keys_iff.1 htext
  obtain ⟨number, hget'⟩ := mem_keys_iff.1 hother
  rw [hget, hget', Option.getD_some, Option.getD_some] at hsame
  exact h.text_injective hget (hsame ▸ hget')

/-- The index numbers the ground atoms without a gap, so there are as many of them. -/
theorem Dense.size_eq (h : t.Dense) (hsound : t.Sound) : t.size = t.largest := by
  have hperm : t.numbers.Perm (List.range' 1 t.largest) := by
    refine (List.perm_ext_iff_of_nodup hsound.nodup_numbers (List.nodup_range' 1)).2 fun atom => ?_
    rw [mem_numbers_iff, List.mem_range'_1]
    constructor
    · rintro ⟨text, hget⟩
      obtain ⟨hpos, hle⟩ := hsound.le_largest hget
      omega
    · intro hrange
      obtain ⟨text, htext⟩ := Option.isSome_iff_exists.1 (h atom (by omega) (by omega))
      exact ⟨text, (hsound.get?_iff text atom).2 htext⟩
  have hlength := hperm.length_eq
  rw [numbers, List.length_map, Std.HashMap.length_keys, List.length_range'] at hlength
  exact hlength

/-- The atoms are exactly the numbers from one to their count, each with a ground atom of its
own, by which it is found. -/
structure Exact (t : AtomTable) : Prop where
  atoms_eq : t.toList.map Prod.fst = List.range' 1 t.size
  texts_nodup : (t.toList.map fun listed => listed.2.text).Nodup
  found : ∀ listed ∈ t.toList, t.get? listed.2.text = some listed.1

theorem Sound.get?_of_mem_toList (hsound : t.Sound) {listed : Nat × AtomEntry}
    (h : listed ∈ t.toList) : t.get? listed.2.text = some listed.1 :=
  (hsound.get?_iff _ _).2 (text?_eq_some_iff.2 ⟨listed.2, mem_toList_iff.1 h, rfl⟩)

theorem Dense.exact (h : t.Dense) (hsound : t.Sound) : t.Exact := by
  have hatoms := h.map_fst_toList
  refine ⟨by rw [hatoms, h.size_eq hsound], ?_, fun _ => hsound.get?_of_mem_toList⟩
  have hnodup : (t.toList.map Prod.fst).Nodup := by
    rw [hatoms]
    exact (List.nodup_range' 1)
  refine hnodup.of_map.map_on fun listed hlisted other hother hsame => ?_
  have hfound := hsound.get?_of_mem_toList hlisted
  rw [show listed.2.text = other.2.text from hsame, hsound.get?_of_mem_toList hother,
    Option.some.injEq] at hfound
  exact List.inj_on_of_nodup_map hnodup hlisted hother hfound.symm

/-! ## What becomes of a table -/

/-- What an operation makes of a table: ground atoms are met, or met and then withdrawn down to
the ones before, or all of them are dropped. -/
inductive Becomes (t : AtomTable) : AtomTable → Prop where
  | met (mentions : List Mention) : Becomes t (t.meetAll mentions)
  | cutBack (mentions : List Mention) : Becomes t ((t.meetAll mentions).rollback t.largest)
  | cleared : Becomes t {}

theorem Dense.becomes {u : AtomTable} (h : t.Dense) (hbecomes : t.Becomes u) : u.Dense := by
  cases hbecomes with
  | met mentions => exact h.meetAll mentions
  | cutBack mentions => exact (h.meetAll mentions).rollback _
  | cleared => exact dense_empty

end AtomTable

namespace Session

variable {β : Type} {holds : β → List Clause → Prop} {s : Session β}

theorem SameInstance.atoms_becomes {t : Session β} (h : SameInstance s t) :
    s.atoms.Becomes t.atoms := by
  rw [h.atoms_eq]
  exact .met []

variable [Backend β]

theorem Coherent.atoms_commit (hfollows : Backend.Follows holds) (h : s.Coherent holds)
    (grounded : List Grounded) :
    s.atoms.Becomes (exec (Session.commit grounded) s).2.atoms := by
  by_cases hroom : (s.atoms.meetAll (mentionsOfAll grounded)).largest ≤ maxAtom
  · rw [(h.commit_of_room hfollows hroom).2]
    exact .met _
  · obtain ⟨met, counters, _, hcommit, _⟩ := h.exec_commit_error hroom
    rw [hcommit]
    exact .cutBack met

theorem Coherent.atoms_assertAtom (hfollows : Backend.Follows holds) (h : s.Coherent holds)
    (text : String) (polarity : Bool) :
    s.atoms.Becomes (exec (assertAtom text polarity) s).2.atoms := by
  rcases h.exec_assertAtom text polarity with
    ⟨t, l, rfl, rfl, ht, _, hnames, hexec⟩ | hexec
  · have hkept := (keeps_handClause hfollows (fun l hl => List.mem_singleton.1 hl ▸ hnames)
      _ ⟨ht, rfl⟩).2
    rw [hexec, hkept]
    exact .met _
  · rw [hexec]
    exact .met []

/-- The operation may fail, and its backend may refuse. -/
theorem Coherent.atoms_after (hfollows : Backend.Follows holds) (h : s.Coherent holds)
    (op : Operation) : s.atoms.Becomes (s.after op).atoms := by
  cases s.acts_after op with
  | leaves hsame => exact hsame.atoms_becomes
  | @commits _ hsame grounded _ heq =>
    have hbecomes := (ofInstance_coherent holds _ _ hsame h).atoms_commit hfollows grounded
    rwa [← heq, hsame.atoms_eq] at hbecomes
  | asserts text polarity _ heq =>
    rw [heq]
    exact h.atoms_assertAtom hfollows text polarity
  | decides assumptions heq =>
    rw [heq, show (exec (solveWith assumptions) s).2.atoms = s.atoms from
      (s.after_solveWith assumptions).1]
    exact .met []
  | resets heq =>
    rw [heq]
    exact .cleared

theorem Coherent.dense_after (hfollows : Backend.Follows holds) (h : s.Coherent holds)
    (hdense : s.atoms.Dense) (op : Operation) : (s.after op).atoms.Dense :=
  hdense.becomes (h.atoms_after hfollows op)

theorem Coherent.dense_run (hfollows : Backend.Follows holds) (h : s.Coherent holds)
    (hdense : s.atoms.Dense) (ops : List Operation) :
    (ops.foldl Session.after s).Coherent holds ∧ (ops.foldl Session.after s).atoms.Dense := by
  induction ops generalizing s with
  | nil => exact ⟨h, hdense⟩
  | cons op ops ih => exact ih (h.after hfollows op) (h.dense_after hfollows hdense op)

end Session

end Groundwork

import Groundwork.AtomTable
import Mathlib.Data.List.Basic

/-!
# The table of atoms

A table is *sound* if its index and its entries agree.  This module says what each
operation does to the number and to the entry of every ground atom, and that soundness
is kept.

* `get?_record`, `entry?_record`: a new ground atom gets the next number, and nothing
  else changes;
* `entry?_insertAt`, `Sound.insertAt`: a given pairing is recorded where there was none;
* `entry?_setPredicate`: only the predicate of one atom changes, and only if it fits;
* `get?_rollback_iff`, `entry?_rollback`: a table that is rolled back is cut off.
-/

namespace Groundwork

namespace AtomTable

/-! ## Entries -/

theorem entry?_succ (t : AtomTable) (n : Nat) : t.entry? (n + 1) = t.entries[n]?.join :=
  rfl

theorem le_largest_of_entry? {t : AtomTable} {atom : Nat} {entry : AtomEntry}
    (h : t.entry? atom = some entry) : 0 < atom ∧ atom ≤ t.largest := by
  cases atom with
  | zero => cases h
  | succ n =>
    rw [entry?_succ, Option.join_eq_some_iff] at h
    obtain ⟨hn, _⟩ := Array.getElem?_eq_some_iff.1 h
    exact ⟨Nat.succ_pos n, hn⟩

theorem text?_eq_some_iff {t : AtomTable} {atom : Nat} {text : String} :
    t.text? atom = some text ↔ ∃ entry, t.entry? atom = some entry ∧ entry.text = text :=
  Option.map_eq_some_iff

/-- The index and the entries agree. -/
structure Sound (t : AtomTable) : Prop where
  get?_iff : ∀ text atom, t.get? text = some atom ↔ t.text? atom = some text

theorem sound_empty : Sound {} := by
  refine ⟨fun text atom => ?_⟩
  have hget : ({} : AtomTable).get? text = none := Std.HashMap.getElem?_empty
  cases atom with
  | zero => simp [hget, text?, entry?]
  | succ n => simp [hget, text?, entry?]

theorem Sound.le_largest {t : AtomTable} (h : t.Sound) {text : String} {atom : Nat}
    (hget : t.get? text = some atom) : 0 < atom ∧ atom ≤ t.largest := by
  obtain ⟨entry, hentry, _⟩ := text?_eq_some_iff.1 ((h.get?_iff text atom).1 hget)
  exact le_largest_of_entry? hentry

/-! ## New ground atoms -/

/-- The table with a ground atom numbered, if it is new. -/
def record (t : AtomTable) (text : String) : AtomTable :=
  match t.get? text with
  | some _ => t
  | none =>
    { entries := t.entries.push (some { text }), index := t.index.insert text (t.largest + 1) }

/-- The number of a ground atom, once it is recorded. -/
def numberOf (t : AtomTable) (text : String) : Nat :=
  (t.get? text).getD (t.largest + 1)

theorem largest_record (t : AtomTable) (text : String) :
    (t.record text).largest = if (t.get? text).isSome then t.largest else t.largest + 1 := by
  unfold record
  cases t.get? text with
  | some atom => rfl
  | none => exact Array.size_push _

theorem intern_eq {t : AtomTable} (hlargest : t.largest ≤ maxAtom) (text : String) :
    t.intern text =
      if (t.record text).largest ≤ maxAtom then (.ok (t.numberOf text), t.record text)
      else (.error .atomsExhausted, t) := by
  rw [largest_record]
  unfold intern record numberOf
  cases t.get? text with
  | some atom =>
    show _ = if t.largest ≤ maxAtom then _ else _
    rw [if_pos hlargest]
    rfl
  | none => rfl

theorem get?_record (t : AtomTable) (text other : String) :
    (t.record text).get? other = if other = text then some (t.numberOf text) else t.get? other := by
  unfold record numberOf
  cases hget : t.get? text with
  | some atom =>
    by_cases hsame : other = text
    · rw [if_pos hsame, hsame]
      exact hget
    · rw [if_neg hsame]
  | none =>
    show (t.index.insert text (t.largest + 1))[other]? = _
    rw [Std.HashMap.getElem?_insert]
    by_cases hsame : other = text
    · simp [hsame]
    · rw [if_neg hsame, if_neg (by simp [Ne.symm hsame])]
      rfl

theorem entry?_record (t : AtomTable) (text : String) (atom : Nat) :
    entry? (t.record text) atom =
      if t.get? text = none ∧ atom = t.largest + 1 then some { text } else t.entry? atom := by
  unfold record
  cases hget : t.get? text with
  | some _ => simp
  | none =>
    cases atom with
    | zero =>
      rw [if_neg (by omega)]
      rfl
    | succ n =>
      show (t.entries.push (some { text }))[n]?.join = _
      rw [Array.getElem?_push]
      by_cases hn : n = t.entries.size
      · simp [hn, largest]
      · have hne : ¬ n + 1 = t.largest + 1 := fun h => hn (Nat.succ.inj h)
        rw [if_neg hn, if_neg fun h => hne h.2]
        rfl

theorem Sound.record {t : AtomTable} (h : t.Sound) (text : String) : (t.record text).Sound := by
  refine ⟨fun other atom => ?_⟩
  rw [get?_record, text?_eq_some_iff]
  simp only [entry?_record]
  cases hget : t.get? text with
  | some number =>
    have hnumber : t.numberOf text = number := by
      rw [numberOf, hget]
      rfl
    simp only [reduceCtorEq, false_and, if_false, ← text?_eq_some_iff, ← h.get?_iff]
    by_cases hsame : other = text
    · rw [if_pos hsame, hnumber, hsame, hget]
    · rw [if_neg hsame]
  | none =>
    have hnumber : t.numberOf text = t.largest + 1 := by
      rw [numberOf, hget]
      rfl
    simp only [true_and, hnumber]
    by_cases hatom : atom = t.largest + 1
    · subst hatom
      have hbeyond : ¬ t.get? other = some (t.largest + 1) := by
        intro hother
        have := (h.le_largest hother).2
        omega
      by_cases hsame : other = text
      · simp [hsame]
      · simp [hsame, hbeyond, Ne.symm hsame]
    · have hold : (∃ entry, t.entry? atom = some entry ∧ entry.text = other) ↔
          t.get? other = some atom := by
        rw [← text?_eq_some_iff, h.get?_iff]
      rw [if_neg hatom, hold]
      by_cases hsame : other = text
      · rw [if_pos hsame, hsame, hget]
        simp [Ne.symm hatom]
      · rw [if_neg hsame]

/-! ## Given pairings -/

theorem insertAt_eq_ok_iff {t u : AtomTable} {text : String} {atom bound : Nat} :
    t.insertAt text atom bound = .ok u ↔
      (0 < atom ∧ atom ≤ maxAtom ∧ atom ≤ bound) ∧
        (t.get? text = none ∧ t.entry? atom = none) ∧
        u = { entries := (t.entries ++ Array.replicate (atom - t.entries.size) none).setIfInBounds
                (atom - 1) (some { text })
              index := t.index.insert text atom } := by
  unfold insertAt
  split
  · next h => exact iff_of_false (by simp) fun h' => by omega
  · next hbounds =>
    split
    · next h =>
      refine iff_of_false (by simp) fun h' => ?_
      simp [h'.2.1] at h
    · next h =>
      simp only [not_or, Bool.not_eq_true, Option.isSome_eq_false_iff, Option.isNone_iff_eq_none]
        at h
      simp only [Except.ok.injEq, h, true_and, and_true]
      exact ⟨fun hu => ⟨by omega, hu.symm⟩, fun h' => h'.2.symm⟩

section InsertAt

variable {t u : AtomTable} {text : String} {atom bound : Nat}

theorem get?_insertAt (h : t.insertAt text atom bound = .ok u) (other : String) :
    u.get? other = if other = text then some atom else t.get? other := by
  obtain ⟨_, _, rfl⟩ := insertAt_eq_ok_iff.1 h
  show (t.index.insert text atom)[other]? = _
  rw [Std.HashMap.getElem?_insert]
  by_cases hsame : other = text
  · simp [hsame]
  · rw [if_neg hsame, if_neg (by simp [Ne.symm hsame])]
    rfl

/-- The entries that are filled up are none, so nothing changes but the entry itself. -/
theorem entry?_insertAt (h : t.insertAt text atom bound = .ok u) (other : Nat) :
    u.entry? other = if other = atom then some { text } else t.entry? other := by
  obtain ⟨⟨hpos, _, _⟩, _, rfl⟩ := insertAt_eq_ok_iff.1 h
  cases other with
  | zero =>
    rw [if_neg (by omega)]
    rfl
  | succ n =>
    show ((t.entries ++ Array.replicate (atom - t.entries.size) none).setIfInBounds (atom - 1)
      (some { text }))[n]?.join = _
    rw [Array.getElem?_setIfInBounds]
    by_cases hsame : n + 1 = atom
    · subst hsame
      have hlt : n < t.entries.size + (n + 1 - t.entries.size) := by omega
      simp [hlt]
    · rw [if_neg (by omega), if_neg hsame, Array.getElem?_append]
      by_cases hn : n < t.entries.size
      · rw [if_pos hn]
        rfl
      · rw [if_neg hn, Array.getElem?_replicate, entry?_succ, Array.getElem?_eq_none (by omega)]
        split <;> rfl

theorem largest_insertAt (h : t.insertAt text atom bound = .ok u) :
    u.largest = max t.largest atom := by
  obtain ⟨_, _, rfl⟩ := insertAt_eq_ok_iff.1 h
  simp only [largest, Array.size_setIfInBounds, Array.size_append, Array.size_replicate]
  omega

theorem Sound.insertAt (hsound : t.Sound) (h : t.insertAt text atom bound = .ok u) : u.Sound := by
  obtain ⟨_, ⟨hget, hentry⟩, _⟩ := insertAt_eq_ok_iff.1 h
  refine ⟨fun other number => ?_⟩
  have hold := hsound.get?_iff other number
  rw [text?_eq_some_iff] at hold ⊢
  rw [get?_insertAt h, entry?_insertAt h]
  by_cases hnumber : number = atom
  · by_cases hsame : other = text
    · simp [hnumber, hsame]
    · rw [if_neg hsame, if_pos hnumber, hold, hnumber, hentry]
      simp [Ne.symm hsame]
  · rw [if_neg hnumber, ← hold]
    by_cases hsame : other = text
    · rw [if_pos hsame, hsame, hget]
      simp [Ne.symm hnumber]
    · rw [if_neg hsame]

end InsertAt

/-! ## Predicates -/

theorem entry?_replace {t : AtomTable} {atom : Nat} {old : AtomEntry}
    (h : t.entry? atom = some old) (new : AtomEntry) (other : Nat) :
    AtomTable.entry? { t with entries := t.entries.setIfInBounds (atom - 1) (some new) } other =
      if other = atom then some new else t.entry? other := by
  obtain ⟨hpos, hle⟩ := le_largest_of_entry? h
  cases other with
  | zero =>
    rw [if_neg (by omega)]
    rfl
  | succ n =>
    show (t.entries.setIfInBounds (atom - 1) (some new))[n]?.join = _
    rw [Array.getElem?_setIfInBounds]
    by_cases hsame : n + 1 = atom
    · subst hsame
      have hlt : n < t.entries.size := hle
      simp [hlt]
    · rw [if_neg (by omega), if_neg hsame]
      rfl

theorem setPredicate_index (t : AtomTable) (atom : Nat) (predicate : String) :
    (t.setPredicate atom predicate).2.index = t.index := by
  unfold setPredicate
  split
  · split <;> rfl
  · rfl

theorem largest_setPredicate (t : AtomTable) (atom : Nat) (predicate : String) :
    (t.setPredicate atom predicate).2.largest = t.largest := by
  unfold setPredicate
  split
  · split
    · exact Array.size_setIfInBounds
    · rfl
  · rfl

theorem entry?_setPredicate (t : AtomTable) (atom : Nat) (predicate : String) (other : Nat) :
    entry? (t.setPredicate atom predicate).2 other =
      (t.entry? other).map fun entry =>
        if other = atom ∧ fits entry.text predicate then { entry with predicate := some predicate }
        else entry := by
  unfold setPredicate
  cases hentry : t.entry? atom with
  | none =>
    by_cases hsame : other = atom
    · simp [hsame, hentry]
    · simp [hsame]
  | some entry =>
    by_cases hfits : fits entry.text predicate = true
    · simp only [if_pos hfits, entry?_replace hentry]
      by_cases hsame : other = atom
      · simp [hsame, hentry, hfits]
      · simp [hsame]
    · simp only [if_neg hfits]
      by_cases hsame : other = atom
      · simp [hsame, hentry, hfits]
      · simp [hsame]

theorem text?_setPredicate (t : AtomTable) (atom : Nat) (predicate : String) (other : Nat) :
    (t.setPredicate atom predicate).2.text? other = t.text? other := by
  unfold text?
  rw [entry?_setPredicate, Option.map_map]
  congr 1
  funext entry
  show (if _ then _ else _ : AtomEntry).text = _
  split <;> rfl

theorem Sound.setPredicate {t : AtomTable} (h : t.Sound) (atom : Nat) (predicate : String) :
    (t.setPredicate atom predicate).2.Sound := by
  refine ⟨fun text other => ?_⟩
  rw [text?_setPredicate, ← h.get?_iff, get?, setPredicate_index]
  rfl

/-! ## Rolling back -/

/-- What the index of a table becomes when entries are withdrawn from it. -/
def eraseEntry (index : Std.HashMap String Nat) : Option AtomEntry → Std.HashMap String Nat
  | some entry => index.erase entry.text
  | none => index

theorem foldl_eraseEntry (entries : List (Option AtomEntry)) (index : Std.HashMap String Nat)
    (text : String) (atom : Nat) :
    (entries.foldl eraseEntry index)[text]? = some atom ↔
      index[text]? = some atom ∧ ∀ entry, some entry ∈ entries → entry.text ≠ text := by
  induction entries generalizing index with
  | nil => simp
  | cons entry entries ih =>
    rw [List.foldl_cons, ih]
    cases entry with
    | none => simp [eraseEntry]
    | some entry =>
      rw [eraseEntry, Std.HashMap.getElem?_erase]
      by_cases hsame : entry.text = text
      · simp [hsame]
      · simp [hsame]

theorem entry?_rollback (t : AtomTable) (bound atom : Nat) :
    entry? (t.rollback bound) atom = if atom ≤ bound then t.entry? atom else none := by
  unfold rollback
  split
  · next hle =>
    split
    · rfl
    · next hatom =>
      cases hentry : t.entry? atom with
      | none => rfl
      | some entry =>
        obtain ⟨_, hlargest⟩ := le_largest_of_entry? hentry
        omega
  · cases atom with
    | zero =>
      rw [if_pos (Nat.zero_le _)]
      rfl
    | succ n =>
      show (t.entries.extract 0 bound)[n]?.join = _
      rw [Array.getElem?_extract, Nat.zero_add]
      by_cases hn : n < bound
      · rw [if_pos (Nat.succ_le_of_lt hn), entry?_succ]
        split
        · rfl
        · next hsize =>
          rw [Array.getElem?_eq_none (by omega)]
      · rw [if_neg (by omega), if_neg (by omega)]
        rfl

theorem largest_rollback (t : AtomTable) (bound : Nat) :
    (t.rollback bound).largest = min t.largest bound := by
  unfold rollback
  split
  · next hle => rw [Nat.min_eq_left hle]
  · show (t.entries.extract 0 bound).size = _
    rw [Array.size_extract, Nat.min_comm]
    rfl

/-- The ground atoms that are withdrawn are those with greater numbers. -/
theorem get?_rollback_iff {t : AtomTable} (h : t.Sound) {bound atom : Nat} {text : String} :
    (t.rollback bound).get? text = some atom ↔ t.get? text = some atom ∧ atom ≤ bound := by
  unfold rollback
  split
  · next hle =>
    constructor
    · intro hget
      have := (h.le_largest hget).2
      exact ⟨hget, by omega⟩
    · exact fun hget => hget.1
  · next hbound =>
    have hdropped : (∃ entry, some entry ∈ t.entries.toList.drop bound ∧ entry.text = text) ↔
        ∃ other, t.get? text = some other ∧ bound < other := by
      simp only [List.mem_iff_getElem?, List.getElem?_drop]
      constructor
      · intro h
        obtain ⟨entry, ⟨n, hn⟩, htext⟩ := h
        refine ⟨bound + n + 1, (h.get?_iff _ _).2 (text?_eq_some_iff.2 ⟨entry, ?_, htext⟩), by omega⟩
        rw [entry?_succ, ← Array.getElem?_toList, hn]
        rfl
      · intro h
        obtain ⟨other, hget, hother⟩ := h
        obtain ⟨entry, hentry, htext⟩ := text?_eq_some_iff.1 ((h.get?_iff _ _).1 hget)
        refine ⟨entry, ⟨other - 1 - bound, ?_⟩, htext⟩
        cases other with
        | zero => omega
        | succ n =>
          rw [entry?_succ, Option.join_eq_some_iff, ← Array.getElem?_toList] at hentry
          rwa [show bound + (n + 1 - 1 - bound) = n by omega]
    show ((t.entries.toList.drop bound).foldl eraseEntry t.index)[text]? = some atom ↔ _
    rw [foldl_eraseEntry]
    refine and_congr_right fun hget => ?_
    have hget : t.get? text = some atom := hget
    constructor
    · intro hkept
      refine Nat.le_of_not_lt fun hlt => ?_
      obtain ⟨entry, hmem, htext⟩ := hdropped.2 ⟨atom, hget, hlt⟩
      exact hkept entry hmem htext
    · intro hle entry hmem htext
      obtain ⟨other, hother, hlt⟩ := hdropped.1 ⟨entry, hmem, htext⟩
      rw [hget, Option.some.injEq] at hother
      omega

theorem Sound.rollback {t : AtomTable} (h : t.Sound) (bound : Nat) : (t.rollback bound).Sound := by
  refine ⟨fun text atom => ?_⟩
  rw [get?_rollback_iff h, h.get?_iff, text?, text?, entry?_rollback]
  by_cases hle : atom ≤ bound
  · simp [hle]
  · simp [hle]

end AtomTable

end Groundwork

import Groundwork.Proofs.AtomTable.Bijection

/-!
# Passes that are undone

A pass gives numbers to ground atoms and records the predicates of the atoms that it added.  When
it is rolled back to the largest number from before, no later call tells whether it has taken
place.

The tables before the pass and after the rollback need not be the same: the index has had entries
inserted and erased.  But their entries are the same, and of a table whose index agrees with its
entries, the entries decide everything that can be asked (`Kept.view_congr`) and everything that
later calls answer (`Kept.answers_congr`).

* `Continues.after`: what a call of a pass leaves of the entries from before;
* `entries_rollback_of_continues`: they are left when the pass is rolled back;
* `rollback_undoes`: what is answered afterwards.
-/

namespace Groundwork.AtomTable

variable {t u : AtomTable}

/-! ## What can be asked -/

/-- The answers of a table to all that can be asked without changing it. -/
structure View where
  get? : String → Option Nat
  literal? : String → Bool → Option Literal
  text? : Nat → Option String
  predicate? : Nat → Option String
  arguments : Nat → List String
  size : Nat
  largest : Nat
  listed : List (Nat × String)

/-- What can be seen of a table. -/
def view (t : AtomTable) : View where
  get? := t.get?
  literal? := t.literal?
  text? := t.text?
  predicate? := t.predicate?
  arguments := t.arguments
  size := t.size
  largest := t.largest
  listed := t.listed

/-- What a call answers. -/
inductive Answer where
  | number (result : Except GroundError Nat)
  | inserted (result : Except DocumentError Unit)
  | recorded (result : Bool)
  | done

/-- The answer of a table to a call. -/
def answer (t : AtomTable) : Call → Answer
  | .intern text => .number (t.intern text).1
  | .insertAt text atom bound => .inserted ((t.insertAt text atom bound).map fun _ => ())
  | .setPredicate atom predicate => .recorded (t.setPredicate atom predicate).1
  | .rollback _ | .clear => .done

/-- The answers to calls that are made one after the other, each with what can be seen of the table
behind it. -/
def answers (t : AtomTable) : List Call → List (Answer × View)
  | [] => []
  | call :: calls => (t.answer call, (t.after call).view) :: answers (t.after call) calls

/-! ## Entries decide -/

theorem entry?_congr (h : t.entries = u.entries) (atom : Nat) : t.entry? atom = u.entry? atom := by
  cases atom with
  | zero => rfl
  | succ n => rw [entry?_succ, entry?_succ, h]

theorem Sound.get?_congr (ht : t.Sound) (hu : u.Sound) (h : t.entries = u.entries)
    (text : String) : t.get? text = u.get? text := by
  apply Option.ext
  intro atom
  rw [ht.get?_iff, hu.get?_iff, text?, text?, entry?_congr h]

theorem Kept.view_congr (ht : t.Kept) (hu : u.Kept) (h : t.entries = u.entries) :
    t.view = u.view := by
  have hget : t.get? = u.get? := funext (ht.sound.get?_congr hu.sound h)
  have hentry : t.entry? = u.entry? := funext (entry?_congr h)
  have hlist : t.toList = u.toList := by rw [toList, toList, h]
  have hsize : t.size = u.size := by
    rw [ht.sound.size_eq_length, hu.sound.size_eq_length, hlist]
  have hlargest : t.largest = u.largest := congrArg Array.size h
  have hliteral : t.literal? = u.literal? := by
    funext text polarity
    rw [literal?, literal?, hget]
  have htext : t.text? = u.text? := by
    funext atom
    rw [text?, text?, hentry]
  have hpredicate : t.predicate? = u.predicate? := by
    funext atom
    rw [predicate?, predicate?, hentry]
  have harguments : t.arguments = u.arguments := by
    funext atom
    rw [arguments, arguments, hentry]
  have hlisted : t.listed = u.listed := by rw [listed, listed, hlist]
  unfold view
  rw [hget, hliteral, htext, hpredicate, harguments, hsize, hlargest, hlisted]

theorem Sound.intern_congr (ht : t.Sound) (hu : u.Sound) (h : t.entries = u.entries)
    (text : String) :
    (t.intern text).1 = (u.intern text).1 ∧
      (t.intern text).2.entries = (u.intern text).2.entries := by
  have hlargest : t.largest = u.largest := congrArg Array.size h
  unfold intern
  rw [ht.get?_congr hu h, hlargest]
  cases u.get? text with
  | some atom => exact ⟨rfl, h⟩
  | none =>
    dsimp only
    split
    · exact ⟨rfl, congrArg (Array.push · (some { text })) h⟩
    · exact ⟨rfl, h⟩

theorem Sound.insertAt_congr (ht : t.Sound) (hu : u.Sound) (h : t.entries = u.entries)
    (text : String) (atom bound : Nat) :
    (t.insertAt text atom bound).map (·.entries) =
      (u.insertAt text atom bound).map (·.entries) := by
  unfold AtomTable.insertAt
  rw [ht.get?_congr hu h, entry?_congr h, h]
  split
  · rfl
  · split <;> rfl

theorem setPredicate_congr (h : t.entries = u.entries) (atom : Nat) (predicate : String) :
    (t.setPredicate atom predicate).1 = (u.setPredicate atom predicate).1 ∧
      (t.setPredicate atom predicate).2.entries = (u.setPredicate atom predicate).2.entries := by
  unfold setPredicate
  rw [entry?_congr h]
  cases u.entry? atom with
  | none => exact ⟨rfl, h⟩
  | some entry =>
    dsimp only
    split
    · exact ⟨rfl, congrArg (Array.setIfInBounds · (atom - 1) _) h⟩
    · exact ⟨rfl, h⟩

theorem entries_rollback (t : AtomTable) (bound : Nat) :
    (t.rollback bound).entries = t.entries.take bound := by
  unfold rollback
  split
  · next hle =>
    rw [Array.take_eq_extract]
    exact (Array.extract_eq_self_of_le hle).symm
  · rfl

/-- A call that is made of tables with the same entries has the same answer, and leaves them with
the same entries. -/
theorem Kept.after_congr (ht : t.Kept) (hu : u.Kept) (h : t.entries = u.entries) (call : Call) :
    t.answer call = u.answer call ∧ (t.after call).entries = (u.after call).entries := by
  cases call with
  | intern text =>
    obtain ⟨hanswer, hentries⟩ := ht.sound.intern_congr hu.sound h text
    exact ⟨congrArg Answer.number hanswer, hentries⟩
  | insertAt text atom bound =>
    have hinsert := ht.sound.insertAt_congr hu.sound h text atom bound
    simp only [answer, AtomTable.after]
    cases ht' : t.insertAt text atom bound <;> cases hu' : u.insertAt text atom bound <;>
      rw [ht', hu'] at hinsert
    · cases hinsert
      exact ⟨rfl, h⟩
    · cases hinsert
    · cases hinsert
    · exact ⟨rfl, Except.ok.inj hinsert⟩
  | setPredicate atom predicate =>
    obtain ⟨hanswer, hentries⟩ := setPredicate_congr h atom predicate
    exact ⟨congrArg Answer.recorded hanswer, hentries⟩
  | rollback atom =>
    refine ⟨rfl, ?_⟩
    show (t.rollback atom).entries = (u.rollback atom).entries
    rw [entries_rollback, entries_rollback, h]
  | clear => exact ⟨rfl, rfl⟩

theorem Kept.answers_congr (ht : t.Kept) (hu : u.Kept) (h : t.entries = u.entries)
    (calls : List Call) : t.answers calls = u.answers calls := by
  induction calls generalizing t u with
  | nil => rfl
  | cons call calls ih =>
    obtain ⟨hanswer, hentries⟩ := ht.after_congr hu h call
    rw [answers, answers, hanswer, (ht.after call).view_congr (hu.after call) hentries,
      ih (ht.after call) (hu.after call) hentries]

/-! ## Passes -/

/-- Whether the call is one of a pass that began when the largest number was the bound: it gives a
number, or records the predicate of an atom above the bound. -/
def Call.Adds (bound : Nat) : Call → Prop
  | .intern _ => True
  | .setPredicate atom _ => bound < atom
  | .insertAt .. | .rollback _ | .clear => False

/-- The table has the entries of the other one, and others behind them. -/
def Continues (t u : AtomTable) : Prop :=
  ∃ added, u.entries = t.entries ++ added

theorem Continues.refl (t : AtomTable) : t.Continues t :=
  ⟨#[], by rw [Array.append_empty]⟩

theorem Continues.after (h : t.Continues u) {call : Call} (hcall : call.Adds t.largest) :
    t.Continues (u.after call) := by
  obtain ⟨added, hadded⟩ := h
  cases call with
  | intern text =>
    show ∃ added, (u.intern text).2.entries = _
    unfold AtomTable.intern
    cases u.get? text with
    | some atom => exact ⟨added, hadded⟩
    | none =>
      dsimp only
      split
      · exact ⟨added.push (some { text }), by rw [hadded, Array.push_append]⟩
      · exact ⟨added, hadded⟩
  | setPredicate atom predicate =>
    -- The entry that is replaced is one of those behind.
    have hatom : t.entries.size < atom := hcall
    show ∃ added, (u.setPredicate atom predicate).2.entries = _
    rcases setPredicate_cases u atom predicate with heq | ⟨entry, hentry, hfits⟩
    · exact ⟨added, by rw [heq, hadded]⟩
    · refine ⟨added.setIfInBounds (atom - 1 - t.entries.size)
        (some { entry with predicate := some predicate }), ?_⟩
      unfold AtomTable.setPredicate
      rw [hentry]
      dsimp only
      rw [if_pos hfits, hadded, Array.setIfInBounds_append_right (by omega)]
  | insertAt text atom bound => exact hcall.elim
  | rollback atom => exact hcall.elim
  | clear => exact hcall.elim

theorem continues_foldl_after (h : t.Continues u) {pass : List Call}
    (hpass : ∀ call ∈ pass, call.Adds t.largest) : t.Continues (pass.foldl after u) := by
  induction pass generalizing u with
  | nil => exact h
  | cons call pass ih =>
    obtain ⟨hcall, hrest⟩ := List.forall_mem_cons.1 hpass
    exact ih (h.after hcall) hrest

theorem entries_rollback_of_continues (h : t.Continues u) :
    (u.rollback t.largest).entries = t.entries := by
  obtain ⟨added, hadded⟩ := h
  rw [entries_rollback, hadded, Array.take_eq_extract]
  exact Array.extract_append_left.trans Array.extract_size

/-- Whatever calls have been made before, a pass that is rolled back to the largest number from
before it leaves nothing to be seen, neither at once nor by any later calls. -/
theorem rollback_undoes (calls pass : List Call)
    (hpass : ∀ call ∈ pass, call.Adds (calls.foldl after {}).largest) (later : List Call) :
    let t : AtomTable := calls.foldl after {}
    let u : AtomTable := (pass.foldl after t).rollback t.largest
    u.view = t.view ∧ u.answers later = t.answers later := by
  have ht : Kept (calls.foldl after {}) := kept_foldl_after calls kept_empty
  have hu := (kept_foldl_after pass ht).rollback (calls.foldl after {}).largest
  have hentries := entries_rollback_of_continues (continues_foldl_after (Continues.refl _) hpass)
  exact ⟨hu.view_congr ht hentries, hu.answers_congr ht hentries later⟩

/-- A table with a single atom. -/
def single : AtomTable :=
  [Call.intern "p", .setPredicate 1 "p"].foldl after {}

/-- Additions of which one is known already. -/
def additions : List Call :=
  [.intern "q a", .setPredicate 2 "q", .intern "p", .intern "r"]

theorem largest_single : single.largest = 1 := by
  have hget : ({} : AtomTable).get? "p" = none := Std.HashMap.getElem?_empty
  have hroom : (record {} "p").largest = 1 := by
    rw [largest_record, hget]
    rfl
  show (setPredicate (intern {} "p").2 1 "p").2.largest = 1
  rw [largest_setPredicate, intern_eq (Nat.zero_le _), if_pos (by rw [hroom]; decide), hroom]

theorem adds_additions : ∀ call ∈ additions, call.Adds single.largest := by
  rw [largest_single]
  simp [additions, Call.Adds]

theorem rollback_undoes_additions :
    (∀ call ∈ additions, call.Adds single.largest) ∧
    let u : AtomTable := (additions.foldl after single).rollback single.largest
    u.view = single.view ∧
      u.answers [.intern "r", .setPredicate 2 "q", .insertAt "q a" 3 4, .rollback 0] =
        single.answers [.intern "r", .setPredicate 2 "q", .insertAt "q a" 3 4, .rollback 0] :=
  ⟨adds_additions, rollback_undoes [.intern "p", .setPredicate 1 "p"] additions adds_additions _⟩

end Groundwork.AtomTable

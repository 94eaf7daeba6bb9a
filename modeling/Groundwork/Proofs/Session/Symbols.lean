import Groundwork.Proofs.Session.Reached
import Groundwork.Proofs.SortTable

/-!
# Legal symbols

Whatever is put into a session, its constants and the names in its values are legal tokens, as
every way of putting them in looks at them first or makes them up.  A table of values also
lists each pair that has a value once.

* `ValueTable.Legal`: what is kept of a table of values, beside what is kept of a table of sorts;
* `OfSymbols`: a property of sorts and values outlasts the operations that leave them alone;
* `Legal.after`, `Reached.legal`: the step and the run.
-/

namespace Groundwork

/-! ## Values -/

namespace ValueTable

theorem get?_set (t : ValueTable) (domain function image other name : String) :
    (t.set domain function image).2.get? other name =
      if (other, name) = (domain, function) then some image else t.get? other name := by
  show (t.images.insert (domain, function) image)[(other, name)]? = _
  rw [Std.HashMap.getElem?_insert]
  by_cases hsame : (other, name) = (domain, function)
  · rw [if_pos hsame, if_pos (by simp [hsame])]
  · rw [if_neg hsame, if_neg (by simpa using Ne.symm hsame)]
    rfl

theorem order_set (t : ValueTable) (domain function image : String) :
    (t.set domain function image).2.order.toList =
      if (t.get? domain function).isSome then t.order.toList
      else t.order.toList ++ [(domain, function)] := by
  show (if (t.get? domain function).isSome then t.order
    else t.order.push (domain, function)).toList = _
  split
  · rfl
  · exact Array.toList_push

/-- The pairs that have a value are listed once each, and all names are legal tokens. -/
structure Legal (t : ValueTable) : Prop where
  mem_order_iff : ∀ domain function,
    (domain, function) ∈ t.order.toList ↔ (t.get? domain function).isSome = true
  nodup : t.order.toList.Nodup
  tokens : ∀ domain function image, t.get? domain function = some image →
    legalToken domain = true ∧ legalToken function = true ∧ legalToken image = true

theorem legal_empty : Legal {} := by
  have hnone : ∀ domain function, ({} : ValueTable).get? domain function = none :=
    fun _ _ => Std.HashMap.getElem?_empty
  refine ⟨fun domain function => ?_, List.nodup_nil, fun domain function image h => ?_⟩
  · simp [hnone]
  · rw [hnone] at h
    cases h

theorem Legal.set {t : ValueTable} (h : t.Legal) {domain function image : String}
    (hdomain : legalToken domain = true) (hfunction : legalToken function = true)
    (himage : legalToken image = true) : (t.set domain function image).2.Legal := by
  have hmem := h.mem_order_iff domain function
  refine ⟨fun other name => ?_, ?_, fun other name value hvalue => ?_⟩
  · have hother := h.mem_order_iff other name
    rw [order_set, get?_set]
    by_cases hsome : (t.get? domain function).isSome = true
    · rw [if_pos hsome]
      by_cases hsame : (other, name) = (domain, function)
      · cases hsame
        simp [hmem, hsome]
      · rw [if_neg hsame, hother]
    · rw [if_neg hsome, List.mem_append, List.mem_singleton, hother]
      by_cases hsame : (other, name) = (domain, function)
      · simp [hsame]
      · simp [hsame]
  · rw [order_set]
    split
    · exact h.nodup
    · next hnone =>
      refine h.nodup.append (List.nodup_singleton _) (List.disjoint_singleton.2 ?_)
      rwa [hmem]
  · rw [get?_set] at hvalue
    split at hvalue
    · next hsame =>
      cases hsame
      cases hvalue
      exact ⟨hdomain, hfunction, himage⟩
    · exact h.tokens other name value hvalue

/-- Functions lead from legal tokens to legal tokens. -/
theorem Legal.evaluate {t : ValueTable} (h : t.Legal) {term value : String}
    (hbase : legalToken (Term.base term) = true) (heq : t.evaluate term = .ok value) :
    legalToken value = true := by
  refine Fallible.foldlM_invariant (P := fun constant => legalToken constant = true) ?_ hbase heq
  intro constant function next _ hstep
  split at hstep
  · next image himage =>
    cases hstep
    exact (h.tokens _ _ _ himage).2.2
  · cases hstep

end ValueTable

/-! ## Grounders -/

/-- The symbols of the grounder are legal, and restrictions are to constants. -/
structure Grounder.Legal (g : Grounder) : Prop where
  sorts : g.sorts.Legal
  values : g.values.Legal
  restricted : ∀ sort constants, (sort, constants) ∈ g.restrictions →
    ∀ constant ∈ constants, g.sorts.isConstant constant = true

/-- The operation leaves the sorts and the values alone. -/
def Operation.LeavesSymbols : Operation → Prop
  | .readProgram _ | .fillSort _ _ | .addElement _ _ | .addSignature _ | .setValue _ _ _
  | .installTree _ _ _ => False
  | _ => True

namespace Session

/-! ## Operations that leave the symbols alone -/

section OfSymbols

variable {β : Type} {P : Session β → Prop}

/-- The property is one of the sorts and of the values. -/
def OfSymbols (P : Session β → Prop) : Prop :=
  ∀ s t : Session β, t.sorts = s.sorts → t.values = s.values → P s → P t

theorem OfSymbols.noteInput (hP : OfSymbols P) : Keeps P (noteInput : SessionM β Unit) :=
  Keeps.modify fun s hs => hP s _ rfl rfl hs

theorem OfSymbols.addRule (hP : OfSymbols P) (rule : Rule) :
    Keeps P (addRule rule : SessionM β Unit) :=
  Keeps.bind hP.noteInput fun _ => Keeps.modify fun s hs => hP s _ rfl rfl hs

theorem OfSymbols.onAtoms (hP : OfSymbols P) {α : Type} (m : AtomM α) :
    Keeps P (onAtoms m : SessionM β α) := by
  intro s hs
  rw [exec_onAtoms]
  exact hP s _ rfl rfl hs

theorem OfSymbols.setOption (hP : OfSymbols P) (setting : Setting) :
    Keeps P (setOption setting : SessionM β Bool) := by
  refine Keeps.get_bind fun s hs => ?_
  split
  · exact hP s _ rfl rfl hs
  · exact hs

variable [Backend β]

theorem OfSymbols.handClause (hP : OfSymbols P) (c : Clause) :
    Keeps P (handClause c : SessionM β Unit) :=
  Keeps.bind (Keeps.modifyGet fun s hs => hP s _ rfl rfl hs) fun _ =>
    Keeps.bind (keeps_orFail _ _) fun _ =>
      Keeps.bind (Keeps.modify fun s hs => hP s _ rfl rfl hs) fun _ => hP.noteInput

theorem OfSymbols.commit (hP : OfSymbols P) (grounded : List Grounded) :
    Keeps P (commit grounded : SessionM β Nat) := by
  have hencode : ∀ largest clauses one,
      Keeps P (encode largest clauses one : SessionM β (Array Clause)) := by
    intro largest clauses one s hs
    rw [exec_encode]
    split <;> exact hP s _ rfl rfl hs
  refine Keeps.get_bind fun s hs => ?_
  have hfold := Keeps.foldlM (fun clauses one (_ : one ∈ grounded) =>
    hencode s.atoms.largest clauses one) #[]
  exact Keeps.bind hfold (fun clauses => Keeps.bind (Keeps.forM fun c _ => hP.handClause c) fun _ =>
    Keeps.pure clauses.size) s hs

theorem OfSymbols.unfoldGrounded (hP : OfSymbols P)
    (answer : Except GroundError (List Grounded)) :
    Keeps P (unfoldGrounded answer : SessionM β Nat) :=
  Keeps.bind (keeps_orFail _ _) fun grounded =>
    Keeps.bind (Keeps.modify fun s hs => hP s _ rfl rfl hs) fun _ => hP.commit grounded

theorem OfSymbols.assertAtom (hP : OfSymbols P) (text : String) (polarity : Bool) :
    Keeps P (assertAtom text polarity : SessionM β Unit) :=
  Keeps.bind (hP.onAtoms _) fun l => hP.handClause [l]

theorem OfSymbols.solveWith (hP : OfSymbols P) (assumptions : List String) :
    Keeps P (solveWith assumptions : SessionM β (Bool × List Literal)) := by
  intro s hs
  cases hread : assumptions.mapM (assumptionLiteral s.atoms) with
  | error e =>
    rw [exec_solveWith_error hread]
    exact hs
  | ok literals =>
    rw [exec_solveWith_ok hread]
    split <;> exact hP s _ rfl rfl hs

theorem OfSymbols.after (hP : OfSymbols P) {s : Session β} (hs : P s) {op : Operation}
    (hop : op.LeavesSymbols) : P (s.after op) := by
  cases op with
  | addRule rule => exact hP.addRule rule s hs
  | unfoldRule rule => exact Keeps.get_bind (fun s hs => hP.unfoldGrounded _ s hs) s hs
  | unfoldRestricted rule restrictions =>
    exact Keeps.get_bind (fun s hs => hP.unfoldGrounded _ s hs) s hs
  | unfoldInstance => exact Keeps.get_bind (fun s hs => hP.unfoldGrounded _ s hs) s hs
  | assumeUniqueNames => exact Keeps.get_bind (fun s hs => hP.commit _ s hs) s hs
  | addGroundClause kind clause => exact hP.commit _ s hs
  | assertAtom text polarity => exact hP.assertAtom text polarity s hs
  | solveWith assumptions => exact hP.solveWith assumptions s hs
  | reset => exact hP s _ rfl rfl hs
  | setOption setting => exact hP.setOption setting s hs
  | setCancelled cancelled => exact hP s _ rfl rfl hs
  | setHost host => exact hP s _ rfl rfl hs
  | _ => exact hop.elim

end OfSymbols

/-! ## All operations -/

section Legal

variable {β : Type}

/-- The sorts and the values hold legal tokens. -/
structure Legal (s : Session β) : Prop where
  sorts : s.sorts.Legal
  values : s.values.Legal

theorem ofSymbols_legal : OfSymbols (Legal : Session β → Prop) := by
  intro s t hsorts hvalues h
  exact ⟨hsorts ▸ h.sorts, hvalues ▸ h.values⟩

theorem keeps_legal_onSorts {α : Type} {f : SortTable → Except SortError α × SortTable}
    (hf : ∀ t : SortTable, t.Legal → (f t).2.Legal) :
    Keeps Legal (onSorts f : SessionM β α) :=
  Keeps.bind (Keeps.modifyGet fun s hs => ⟨hf s.sorts hs.sorts, hs.values⟩) fun _ =>
    keeps_orFail _ _

theorem keeps_legal_fillSort (sort : String) (count : Nat) :
    Keeps Legal (fillSort sort count : SessionM β (List String)) :=
  Keeps.bind (keeps_checkSortLimit sort count) fun _ =>
    Keeps.bind ofSymbols_legal.noteInput fun _ =>
      keeps_legal_onSorts fun _ ht => ht.fill sort count

theorem keeps_legal_addElement (sort constant : String) :
    Keeps Legal (addElement sort constant : SessionM β Unit) :=
  Keeps.bind (keeps_checkSortLimit sort 1) fun _ =>
    Keeps.bind ofSymbols_legal.noteInput fun _ =>
      keeps_legal_onSorts fun _ ht => ht.addElement sort constant

theorem keeps_legal_addSignature (signature : Signature) :
    Keeps Legal (addSignature signature : SessionM β Unit) :=
  Keeps.bind (Keeps.modify fun _ hs => ⟨hs.sorts, hs.values⟩) fun _ => ofSymbols_legal.noteInput

theorem keeps_legal_setValue (domain function image : String) :
    Keeps Legal (setValue domain function image : SessionM β (Option String)) := by
  unfold setValue
  split
  · exact Keeps.throw _
  · next hnone =>
    have htokens := List.find?_eq_none.1 (Option.eq_none_iff_forall_ne_some.2 hnone)
    simp only [List.forall_mem_cons, Bool.not_eq_true, Bool.not_eq_false'] at htokens
    obtain ⟨hdomain, hfunction, himage, _⟩ := htokens
    exact Keeps.bind ofSymbols_legal.noteInput fun _ =>
      Keeps.modifyGet fun s hs => ⟨hs.sorts, hs.values.set hdomain hfunction himage⟩

theorem keeps_legal_installTree (sort : String) (tree : Tree) (sink : Option String) :
    Keeps Legal (installTree sort tree sink : SessionM β Unit) := by
  have hset : ∀ domain function image : String,
      Keeps Legal (discard (setValue domain function image) : SessionM β Unit) :=
    fun domain function image => Keeps.discard (keeps_legal_setValue domain function image)
  unfold installTree
  refine Keeps.bind (Keeps.forM fun constant _ => keeps_legal_addElement sort constant) fun _ => ?_
  refine Keeps.bind (Keeps.forM fun edge _ => hset _ _ _) fun _ => ?_
  cases sink with
  | none => exact Keeps.pure _
  | some sink =>
    exact Keeps.bind (keeps_legal_addElement sort sink) fun _ =>
      Keeps.forM fun function _ => Keeps.forM fun leaf _ => hset _ _ _

theorem keeps_legal_applyDeclaration (d : Declaration) :
    Keeps Legal (applyDeclaration d : SessionM β Unit) := by
  cases d with
  | cardinality sort count => exact Keeps.discard (keeps_legal_fillSort sort count)
  | extension sort elements =>
    exact Keeps.forM fun constant _ => keeps_legal_addElement sort constant
  | typing signature => exact keeps_legal_addSignature signature
  | vars names sort => exact Keeps.pure _

theorem Legal.afterProgram {s : Session β} (h : s.Legal) (text : String) :
    (s.afterProgram text).Legal := by
  have htry : ∀ noted d, Keeps Legal (tryDeclaration noted d : SessionM β (Array Diagnostic)) := by
    intro noted d s hs
    have hkept := keeps_legal_applyDeclaration d s hs
    rw [exec_tryDeclaration]
    cases happly : exec (applyDeclaration d) s with
    | mk answer t =>
      rw [happly] at hkept
      cases answer <;> exact hkept
  unfold Session.afterProgram readProgram
  cases Program.parse s.typings text with
  | error _ => exact h
  | ok parsed =>
    have happly : Keeps Legal (applyProgram parsed.1 : SessionM β (List Diagnostic)) :=
      Keeps.bind (Keeps.foldlM (fun noted d _ => htry noted d) _) fun _ =>
        Keeps.bind (Keeps.forM fun rule _ => ofSymbols_legal.addRule rule) fun _ => Keeps.pure _
    exact happly { s with typings := parsed.2 } ⟨h.sorts, h.values⟩

/-- Every operation leaves legal symbols, whether or not it fails. -/
theorem Legal.after [Backend β] {s : Session β} (h : s.Legal) (op : Operation) :
    (s.after op).Legal := by
  cases op with
  | readProgram text => exact h.afterProgram text
  | fillSort sort count => exact keeps_legal_fillSort sort count s h
  | addElement sort constant => exact keeps_legal_addElement sort constant s h
  | addSignature signature => exact keeps_legal_addSignature signature s h
  | setValue domain function image => exact keeps_legal_setValue domain function image s h
  | installTree sort tree sink => exact keeps_legal_installTree sort tree sink s h
  | _ => exact ofSymbols_legal.after h trivial

theorem legal_ofOptions (options : Options) : (ofOptions options).Legal :=
  ⟨SortTable.legal_of_get?_eq_none fun _ => Std.HashMap.getElem?_empty, ValueTable.legal_empty⟩

theorem legal_ofDocument {d : Document} {options : Options} {s : Session Solver}
    (h : ofDocument d options = .ok s) : s.Legal := by
  have hclause : ∀ c, Keeps Legal (installClause c : SessionM Solver Unit) := by
    intro c
    refine Keeps.get_bind fun s hs => ?_
    dsimp only
    split
    · exact hs
    · exact ofSymbols_legal.handClause c s hs
  have hinstall : Keeps Legal (installDocument d : SessionM Solver Unit) := by
    unfold installDocument
    exact Keeps.bind (keeps_orFail _ _) fun _ =>
      Keeps.bind (Keeps.modify fun _ hs => ⟨hs.sorts, hs.values⟩) fun _ =>
        Keeps.bind (Keeps.forM fun c _ => hclause c) fun _ =>
          Keeps.forM fun value _ => Keeps.discard (keeps_legal_setValue _ _ _)
  have hkept := hinstall _ (legal_ofOptions options)
  rwa [ofDocument_eq_ok_iff.1 h] at hkept

theorem Reached.legal {s : Session Solver} (h : Reached s) : s.Legal := by
  induction h with
  | ofOptions options => exact legal_ofOptions options
  | ofDocument h => exact legal_ofDocument h
  | after _ op ih => exact ih.after op

/-- A restriction that is accepted is to constants of its sort. -/
theorem sort_of_mem_restrict {s : Session β} {restrictions accepted : List (String × List String)}
    (h : s.restrict restrictions = .ok accepted) :
    ∀ sort constants, (sort, constants) ∈ accepted → ∃ roster,
      s.sorts.get? sort = some roster ∧ ∀ constant ∈ constants, constant ∈ roster.toList := by
  induction restrictions generalizing accepted with
  | nil =>
    cases h
    simp
  | cons restriction rest ih =>
    obtain ⟨sort, constants⟩ := restriction
    unfold restrict at h
    split at h
    · cases h
    · next roster hroster =>
      split at h
      · cases h
      · next hnone =>
        obtain ⟨later, hlater, hrest⟩ := Fallible.bind_eq_ok_iff.1 h
        rw [Fallible.pure_eq_ok_iff] at hrest
        rw [hrest]
        intro other elements hmem
        rcases List.mem_append.1 hmem with hmem | hmem
        · exact ih hlater other elements hmem
        · cases List.mem_singleton.1 hmem
          refine ⟨roster, hroster, fun constant hconstant => ?_⟩
          have hcontains := List.find?_eq_none.1 hnone constant hconstant
          rwa [Bool.not_eq_true, Bool.not_eq_false', Roster.contains_iff] at hcontains

theorem mem_sort_of_mem_restrict {s : Session β} {restrictions accepted : List (String × List String)}
    (h : s.restrict restrictions = .ok accepted) :
    ∀ sort constants, (sort, constants) ∈ accepted → ∀ constant ∈ constants,
      ∃ roster, s.sorts.get? sort = some roster ∧ constant ∈ roster.toList := by
  intro sort constants hmem constant hconstant
  obtain ⟨roster, hroster, hin⟩ := sort_of_mem_restrict h sort constants hmem
  exact ⟨roster, hroster, hin constant hconstant⟩

theorem isConstant_of_mem_restrict {s : Session β} {restrictions accepted : List (String × List String)}
    (h : s.restrict restrictions = .ok accepted) :
    ∀ sort constants, (sort, constants) ∈ accepted →
      ∀ constant ∈ constants, s.sorts.isConstant constant = true := by
  intro sort constants hmem constant hconstant
  obtain ⟨roster, hroster, hin⟩ := mem_sort_of_mem_restrict h sort constants hmem constant hconstant
  exact (SortTable.isConstant_iff _ _).2 ⟨sort, roster, hroster, hin⟩

/-- Whatever restrictions are accepted, rules are grounded over legal symbols. -/
theorem Legal.grounder {s : Session β} (h : s.Legal)
    {restrictions accepted : List (String × List String)}
    (haccepted : s.restrict restrictions = .ok accepted) : (s.grounder accepted).Legal :=
  ⟨h.sorts, h.values, isConstant_of_mem_restrict haccepted⟩

end Legal

end Session

end Groundwork

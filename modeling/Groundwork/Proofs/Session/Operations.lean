import Groundwork.Proofs.Session.Coherent
import Groundwork.Session.Reading
import Groundwork.Session.Recording
import Groundwork.Session.Solving

/-!
# The operations of a session

A session is made from options or from a document, and then changed by operations, in
any order and whether or not they fail.  Every session that is reached so is coherent.

Operations on sorts, values, rules and options keep every property of the instance, that
is of the atoms, the clauses and the backend.  The others are looked at one by one.
-/

namespace Groundwork

variable {β : Type}

/-- An operation that changes a session. -/
inductive Operation where
  | readProgram (text : String)
  | fillSort (sort : String) (count : Nat)
  | addElement (sort constant : String)
  | addSignature (signature : Signature)
  | setValue (domain function image : String)
  | installTree (sort : String) (tree : Tree) (sink : Option String)
  | addRule (rule : Rule)
  | unfoldRule (rule : Rule)
  | unfoldRestricted (rule : Rule) (restrictions : List (String × List String))
  | unfoldInstance
  | assumeUniqueNames
  | addGroundClause (kind : RuleKind) (clause : GroundClause)
  | assertAtom (text : String) (polarity : Bool)
  | solveWith (assumptions : List String)
  | reset
  | setOption (setting : Setting)
  | setCancelled (cancelled : Bool)
  | setHost (host : Host)

/-- The operation is on sorts, values, rules or options, and leaves the atoms, the clauses and
the backend alone. -/
def Operation.LeavesInstance : Operation → Prop
  | .unfoldRule _ | .unfoldRestricted _ _ | .unfoldInstance | .assumeUniqueNames
  | .addGroundClause _ _ | .assertAtom _ _ | .solveWith _ | .reset => False
  | _ => True

namespace Session

/-- The session after a program was read into it.  A program that is not read through
changes nothing. -/
def afterProgram (s : Session β) (text : String) : Session β :=
  match s.readProgram text with
  | .ok (_, t) => t
  | .error _ => s

/-- The session after an operation. -/
def after [Backend β] (s : Session β) : Operation → Session β
  | .readProgram text => s.afterProgram text
  | .fillSort sort count => (exec (fillSort sort count) s).2
  | .addElement sort constant => (exec (addElement sort constant) s).2
  | .addSignature signature => (exec (addSignature signature) s).2
  | .setValue domain function image => (exec (setValue domain function image) s).2
  | .installTree sort tree sink => (exec (installTree sort tree sink) s).2
  | .addRule rule => (exec (addRule rule) s).2
  | .unfoldRule rule => (exec (unfoldRule rule) s).2
  | .unfoldRestricted rule restrictions => (exec (unfoldRestricted rule restrictions) s).2
  | .unfoldInstance => (exec unfoldInstance s).2
  | .assumeUniqueNames => (exec assumeUniqueNames s).2
  | .addGroundClause kind clause => (exec (addGroundClause kind clause) s).2
  | .assertAtom text polarity => (exec (assertAtom text polarity) s).2
  | .solveWith assumptions => (exec (solveWith assumptions) s).2
  | .reset => (exec reset s).2
  | .setOption setting => (exec (setOption setting) s).2
  | .setCancelled cancelled => (exec (setCancelled cancelled) s).2
  | .setHost host => (exec (setHost host) s).2

/-! ## Sorts, values, rules and options -/

section OfInstance

variable {P : Session β → Prop}

theorem OfInstance.modify (hP : OfInstance P) {f : Session β → Session β}
    (hf : ∀ s, SameInstance s (f s)) : Keeps P (modify f : SessionM β Unit) :=
  Keeps.modify fun s hs => hP s _ (hf s) hs

theorem keeps_orFail {ε α : Type} (cause : ε → Failure) (answer : Except ε α) :
    Keeps P (orFail cause answer : SessionM β α) := by
  cases answer with
  | ok a => exact Keeps.pure a
  | error e => exact Keeps.throw _

theorem keeps_checkSortLimit (sort : String) (count : Nat) :
    Keeps P (checkSortLimit sort count : SessionM β Unit) := by
  refine Keeps.get_bind fun s hs => ?_
  dsimp only
  split
  · exact hs
  · exact hs

theorem keeps_noteInput (hP : OfInstance P) : Keeps P (noteInput : SessionM β Unit) :=
  hP.modify fun _ => ⟨rfl, rfl, rfl, Or.inr rfl⟩

theorem keeps_onSorts (hP : OfInstance P) {α : Type}
    (f : SortTable → Except SortError α × SortTable) : Keeps P (onSorts f : SessionM β α) :=
  Keeps.bind (Keeps.modifyGet fun s hs => hP s _ ⟨rfl, rfl, rfl, Or.inl rfl⟩ hs) fun _ =>
    keeps_orFail _ _

theorem keeps_fillSort (hP : OfInstance P) (sort : String) (count : Nat) :
    Keeps P (fillSort sort count : SessionM β (List String)) :=
  Keeps.bind (keeps_checkSortLimit sort count) fun _ =>
    Keeps.bind (keeps_noteInput hP) fun _ => keeps_onSorts hP _

theorem keeps_addElement (hP : OfInstance P) (sort constant : String) :
    Keeps P (addElement sort constant : SessionM β Unit) :=
  Keeps.bind (keeps_checkSortLimit sort 1) fun _ =>
    Keeps.bind (keeps_noteInput hP) fun _ => keeps_onSorts hP _

theorem keeps_addSignature (hP : OfInstance P) (signature : Signature) :
    Keeps P (addSignature signature : SessionM β Unit) :=
  Keeps.bind (hP.modify fun _ => ⟨rfl, rfl, rfl, Or.inl rfl⟩) fun _ => keeps_noteInput hP

theorem keeps_setValue (hP : OfInstance P) (domain function image : String) :
    Keeps P (setValue domain function image : SessionM β (Option String)) := by
  unfold setValue
  split
  · exact Keeps.throw _
  · exact Keeps.bind (keeps_noteInput hP) fun _ =>
      Keeps.modifyGet fun s hs => hP s _ ⟨rfl, rfl, rfl, Or.inl rfl⟩ hs

theorem keeps_installTree (hP : OfInstance P) (sort : String) (tree : Tree)
    (sink : Option String) : Keeps P (installTree sort tree sink : SessionM β Unit) := by
  have hset : ∀ domain function image : String,
      Keeps P (discard (setValue domain function image) : SessionM β Unit) :=
    fun domain function image => Keeps.discard (keeps_setValue hP domain function image)
  unfold installTree
  refine Keeps.bind (Keeps.forM fun constant _ => keeps_addElement hP sort constant) fun _ => ?_
  refine Keeps.bind (Keeps.forM fun edge _ => hset _ _ _) fun _ => ?_
  cases sink with
  | none => exact Keeps.pure _
  | some sink =>
    exact Keeps.bind (keeps_addElement hP sort sink) fun _ =>
      Keeps.forM fun function _ => Keeps.forM fun leaf _ => hset _ _ _

theorem keeps_addRule (hP : OfInstance P) (rule : Rule) :
    Keeps P (addRule rule : SessionM β Unit) :=
  Keeps.bind (keeps_noteInput hP) fun _ => hP.modify fun _ => ⟨rfl, rfl, rfl, Or.inl rfl⟩

theorem keeps_setOption (hP : OfInstance P) (setting : Setting) :
    Keeps P (setOption setting : SessionM β Bool) := by
  refine Keeps.get_bind fun s hs => ?_
  split
  · exact hP s _ ⟨rfl, rfl, rfl, Or.inl rfl⟩ hs
  · exact hs

theorem keeps_setCancelled (hP : OfInstance P) (cancelled : Bool) :
    Keeps P (setCancelled cancelled : SessionM β Unit) :=
  hP.modify fun _ => ⟨rfl, rfl, rfl, Or.inl rfl⟩

theorem keeps_setHost (hP : OfInstance P) (host : Host) :
    Keeps P (setHost host : SessionM β Unit) :=
  hP.modify fun _ => ⟨rfl, rfl, rfl, Or.inl rfl⟩

theorem keeps_applyDeclaration (hP : OfInstance P) (d : Declaration) :
    Keeps P (applyDeclaration d : SessionM β Unit) := by
  cases d with
  | cardinality sort count => exact Keeps.discard (keeps_fillSort hP sort count)
  | extension sort elements => exact Keeps.forM fun constant _ => keeps_addElement hP sort constant
  | typing signature => exact keeps_addSignature hP signature
  | vars names sort => exact Keeps.pure _

theorem exec_tryDeclaration (noted : Array Diagnostic) (d : Declaration) (s : Session β) :
    exec (tryDeclaration noted d) s =
      match exec (applyDeclaration d) s with
      | (.ok _, t) => (.ok noted, t)
      | (.error failure, t) => (.ok (noted.push (.declaration d failure)), t) := by
  unfold tryDeclaration
  rw [exec_bind, exec_tryCatch, exec_bind]
  cases exec (applyDeclaration d) s with
  | mk answer t => cases answer <;> rfl

theorem keeps_tryDeclaration (hP : OfInstance P) (noted : Array Diagnostic) (d : Declaration) :
    Keeps P (tryDeclaration noted d : SessionM β (Array Diagnostic)) := by
  intro s hs
  have hkept := keeps_applyDeclaration hP d s hs
  rw [exec_tryDeclaration]
  cases happly : exec (applyDeclaration d) s with
  | mk answer t =>
    rw [happly] at hkept
    cases answer with
    | ok _ => exact hkept
    | error _ => exact hkept

theorem keeps_applyProgram (hP : OfInstance P) (program : Program) :
    Keeps P (applyProgram program : SessionM β (List Diagnostic)) :=
  Keeps.bind (Keeps.foldlM (fun noted d _ => keeps_tryDeclaration hP noted d) _) fun _ =>
    Keeps.bind (Keeps.forM fun rule _ => keeps_addRule hP rule) fun _ => Keeps.pure _

theorem afterProgram_of_ofInstance (hP : OfInstance P) {s : Session β} (hs : P s) (text : String) :
    P (s.afterProgram text) := by
  unfold afterProgram readProgram
  cases Program.parse s.typings text with
  | error _ => exact hs
  | ok parsed =>
    have htyped : P { s with typings := parsed.2 } := hP s _ ⟨rfl, rfl, rfl, Or.inl rfl⟩ hs
    exact keeps_applyProgram hP parsed.1 _ htyped

/-- What is known of the instance outlasts the operations that leave it alone. -/
theorem OfInstance.after [Backend β] (hP : OfInstance P) {s : Session β} (hs : P s)
    {op : Operation} (hop : op.LeavesInstance) : P (s.after op) := by
  cases op with
  | readProgram text => exact afterProgram_of_ofInstance hP hs text
  | fillSort sort count => exact keeps_fillSort hP sort count s hs
  | addElement sort constant => exact keeps_addElement hP sort constant s hs
  | addSignature signature => exact keeps_addSignature hP signature s hs
  | setValue domain function image => exact keeps_setValue hP domain function image s hs
  | installTree sort tree sink => exact keeps_installTree hP sort tree sink s hs
  | addRule rule => exact keeps_addRule hP rule s hs
  | setOption setting => exact keeps_setOption hP setting s hs
  | setCancelled cancelled => exact keeps_setCancelled hP cancelled s hs
  | setHost host => exact keeps_setHost hP host s hs
  | _ => exact hop.elim

theorem sameInstance_after [Backend β] (s : Session β) {op : Operation}
    (hop : op.LeavesInstance) : SameInstance s (s.after op) :=
  (ofInstance_sameInstance s).after (SameInstance.refl s) hop

end OfInstance

/-! ## Passes and decisions -/

/-- The session after a decision. -/
def decided (s : Session β) (assumptions : List String) (backend : β) (stage : Stage) :
    Session β :=
  { s with
    counters := { s.counters with solves := s.counters.solves + 1 }
    assumptions := assumptions.map Text.strip
    backend
    stage }

theorem assumptionLiteral_eq (t : AtomTable) (assumption : String) :
    assumptionLiteral t assumption =
      if (t.get? (readAssumption assumption).1).isSome
      then .ok (t.literalOf (readAssumption assumption))
      else .error (.unknownAtom (readAssumption assumption).1) := by
  unfold assumptionLiteral
  dsimp only
  rw [AtomTable.literal?, AtomTable.literalOf]
  cases t.get? (readAssumption assumption).1 <;> rfl

/-- Assumptions are refused by the first of them whose ground atom is not known. -/
theorem mapM_assumptionLiteral (t : AtomTable) (assumptions : List String) :
    assumptions.mapM (assumptionLiteral t) =
      match assumptions.find? fun a => !(t.get? (readAssumption a).1).isSome with
      | some a => .error (.unknownAtom (readAssumption a).1)
      | none => .ok ((assumptions.map readAssumption).map t.literalOf) := by
  induction assumptions with
  | nil => rfl
  | cons a assumptions ih =>
    rw [List.mapM_cons, assumptionLiteral_eq, ih]
    cases hknown : (t.get? (readAssumption a).1).isSome with
    | false =>
      rw [List.find?_cons_of_pos (by simp [hknown])]
      rfl
    | true =>
      rw [List.find?_cons_of_neg (by simp [hknown])]
      cases assumptions.find? fun a => !(t.get? (readAssumption a).1).isSome <;> rfl

theorem find?_unknown_eq_none_iff {t : AtomTable} {assumptions : List String} :
    (assumptions.find? fun a => !(t.get? (readAssumption a).1).isSome) = none ↔
      ∀ a ∈ assumptions.map readAssumption, (t.get? a.1).isSome := by
  simp only [List.find?_eq_none, List.forall_mem_map, Bool.not_eq_true', Bool.not_eq_false]

theorem Coherent.proper_literals {holds : β → List Clause → Prop} {s : Session β}
    (h : s.Coherent holds) {assumed : List (String × Bool)}
    (hknown : ∀ a ∈ assumed, (s.atoms.get? a.1).isSome) :
    ∀ l ∈ assumed.map s.atoms.literalOf, Literal.Proper l := by
  intro l hl
  obtain ⟨a, ha, rfl⟩ := List.mem_map.1 hl
  exact AtomTable.Sound.proper h.largest_le (h.sound.names_literalOf h.largest_le (hknown a ha))

section Passes

variable [Backend β] {holds : β → List Clause → Prop}

theorem keeps_unfoldGrounded (hfollows : Backend.Follows holds)
    (answer : Except GroundError (List Grounded)) :
    Keeps (Coherent holds) (unfoldGrounded answer : SessionM β Nat) := by
  unfold unfoldGrounded
  refine Keeps.bind (keeps_orFail _ _) fun grounded => ?_
  exact Keeps.bind ((ofInstance_coherent holds).modify fun _ => ⟨rfl, rfl, rfl, Or.inl rfl⟩)
    fun _ => Coherent.commit hfollows grounded

theorem keeps_unfoldRestricted (hfollows : Backend.Follows holds) (rule : Rule)
    (restrictions : List (String × List String)) :
    Keeps (Coherent holds) (unfoldRestricted rule restrictions : SessionM β Nat) :=
  Keeps.get_bind fun s hs => keeps_unfoldGrounded hfollows _ s hs

theorem keeps_unfoldInstance (hfollows : Backend.Follows holds) :
    Keeps (Coherent holds) (unfoldInstance : SessionM β Nat) :=
  Keeps.get_bind fun s hs => keeps_unfoldGrounded hfollows _ s hs

theorem keeps_assumeUniqueNames (hfollows : Backend.Follows holds) :
    Keeps (Coherent holds) (assumeUniqueNames : SessionM β Nat) :=
  Keeps.get_bind fun s hs => Coherent.commit hfollows _ s hs

/-- An asserted atom is handed over as a clause once it is met.  Nothing happens if the numbers
run out. -/
theorem Coherent.exec_assertAtom {s : Session β} (h : s.Coherent holds) (text : String)
    (polarity : Bool) :
    (∃ t l, t = { s with atoms := s.atoms.meetAll [⟨text, []⟩] } ∧
        l = t.atoms.literalOf (text, polarity) ∧ t.Coherent holds ∧
        (t.atoms.get? text).isSome ∧ t.atoms.Names l ∧
        exec (assertAtom text polarity) s = exec (handClause [l]) t) ∨
      exec (assertAtom text polarity) s = (.error (.ground .atomsExhausted), s) := by
  unfold assertAtom
  rw [exec_bind, exec_onAtoms]
  by_cases hroom : (s.atoms.meetAll [⟨text, []⟩]).largest ≤ maxAtom
  · have hknown : ((s.atoms.meetAll [⟨text, []⟩]).get? text).isSome :=
      (AtomTable.known_meetAll _ _ _).2 (Or.inr List.mem_cons_self)
    have hnames : (s.atoms.meetAll [⟨text, []⟩]).Names
        ((s.atoms.meetAll [⟨text, []⟩]).literalOf (text, polarity)) :=
      (h.sound.meetAll _).names_literalOf hroom hknown
    rw [(AtomTable.encodes_encodeAtom [] (text, polarity)).run s.atoms h.sound h.largest_le hroom]
    exact Or.inl ⟨_, _, rfl, rfl, h.meetAll hroom, hknown, hnames, rfl⟩
  · rw [AtomTable.exec_encodeAtom_error h.largest_le hroom]
    exact Or.inr rfl

theorem keeps_assertAtom (hfollows : Backend.Follows holds) (text : String) (polarity : Bool) :
    Keeps (Coherent holds) (assertAtom text polarity : SessionM β Unit) := by
  intro s h
  rcases h.exec_assertAtom text polarity with ⟨t, l, _, _, ht, _, hnames, hexec⟩ | hexec
  · rw [hexec]
    refine (keeps_handClause hfollows (fun l' hl => ?_) t ⟨ht, rfl⟩).1
    rwa [List.mem_singleton.1 hl]
  · rw [hexec]
    exact h

theorem exec_solveWith_error {s : Session β} {assumptions : List String} {e : ModelError}
    (h : assumptions.mapM (assumptionLiteral s.atoms) = .error e) :
    exec (solveWith assumptions) s = (.error (.model e), s) := by
  unfold solveWith
  rw [exec_bind, exec_get]
  dsimp only
  rw [h]
  rfl

/-- A decision asks the backend, and changes the session by its answer alone. -/
theorem exec_solveWith_ok {s : Session β} {assumptions : List String} {literals : List Literal}
    (h : assumptions.mapM (assumptionLiteral s.atoms) = .ok literals) :
    exec (solveWith assumptions) s =
      match Backend.solve s.backend literals with
      | (.ok .satisfiable, backend) =>
        (((Backend.model backend).mapError .backend).map (true, ·),
          s.decided assumptions backend .satisfiable)
      | (.ok .unsatisfiable, backend) =>
        (.ok (false, []), s.decided assumptions backend .unsatisfiable)
      | (.ok .unknown, backend) => (.ok (false, []), s.decided assumptions backend .input)
      | (.error e, backend) => (.error (.backend e), s.decided assumptions backend s.stage) := by
  unfold solveWith
  rw [exec_bind, exec_get]
  dsimp only
  rw [h, exec_bind, exec_orFail_ok]
  dsimp only
  rw [exec_bind, exec_modify]
  dsimp only
  rw [exec_bind, exec_get]
  dsimp only
  cases Backend.solve s.backend literals with
  | mk answer backend =>
    dsimp only
    rw [exec_bind, exec_modify]
    dsimp only
    cases answer with
    | error e => rfl
    | ok verdict =>
      rw [exec_bind, exec_orFail_ok]
      dsimp only
      cases verdict with
      | satisfiable =>
        show exec (modify _ >>= fun _ => _) _ = _
        rw [exec_bind, exec_modify]
        dsimp only
        rw [exec_bind, exec_get]
        dsimp only
        rw [exec_bind]
        cases Backend.model backend <;> rfl
      | unsatisfiable => rfl
      | unknown => rfl

theorem keeps_solveWith (hfollows : Backend.Follows holds) (assumptions : List String) :
    Keeps (Coherent holds) (solveWith assumptions : SessionM β (Bool × List Literal)) := by
  intro s h
  have hread := mapM_assumptionLiteral s.atoms assumptions
  cases hfind : assumptions.find? fun a => !(s.atoms.get? (readAssumption a).1).isSome with
  | some a =>
    rw [hfind] at hread
    rw [exec_solveWith_error hread]
    exact h
  | none =>
    rw [hfind] at hread
    have hproper := h.proper_literals (find?_unknown_eq_none_iff.1 hfind)
    have hcoherent : ∀ stage : Stage, Coherent holds (s.decided assumptions
        (Backend.solve s.backend ((assumptions.map readAssumption).map s.atoms.literalOf)).2
          stage) :=
      fun _ => ⟨h.sound, h.largest_le, h.named, hfollows.solve h.holds hproper⟩
    rw [exec_solveWith_ok hread]
    split <;> next hsolve => simpa only [hsolve] using hcoherent _

theorem keeps_reset (hfollows : Backend.Follows holds) :
    Keeps (Coherent holds) (reset : SessionM β Unit) := by
  refine Keeps.modify fun s _ => ⟨AtomTable.sound_empty, Nat.zero_le _, ?_, hfollows.reset _⟩
  simp

end Passes

/-! ## What an operation does -/

/-- The session after rules were counted. -/
def unfolded (s : Session β) (rules : Nat) : Session β :=
  { s with counters := { s.counters with rulesUnfolded := s.counters.rulesUnfolded + rules } }

/-- The comparisons of constants of one sort, as a grounded rule. -/
def uniqueNames (sorts : SortTable) : Grounded where
  kind := .assertion
  clauses := ((uniqueNameAtoms sorts).map fun atom => GroundClause.withHead atom []).toArray

/-- The grounded rules that an operation hands over. -/
def pass (s : Session β) : Operation → Except GroundError (List Grounded)
  | .unfoldRule rule => do return [← (s.grounder (← s.restrict [])).ground rule]
  | .unfoldRestricted rule restrictions => do
    return [← (s.grounder (← s.restrict restrictions)).ground rule]
  | .unfoldInstance => (s.grounder []).groundAll s.strategy s.rules.toList
  | .assumeUniqueNames => .ok [uniqueNames s.sorts]
  | .addGroundClause kind clause => .ok [{ kind, clauses := #[clause] }]
  | _ => .ok []

section Acts

variable [Backend β]

theorem exec_unfoldRestricted (s : Session β) (rule : Rule) (restrictions : List (String × List String)) :
    exec (unfoldRestricted rule restrictions) s =
      exec (unfoldGrounded (s.pass (.unfoldRestricted rule restrictions))) s := by
  unfold unfoldRestricted
  rw [exec_bind, exec_get]
  rfl

theorem exec_unfoldInstance (s : Session β) :
    exec unfoldInstance s = exec (unfoldGrounded (s.pass .unfoldInstance)) s := by
  unfold unfoldInstance
  rw [exec_bind, exec_get]
  rfl

theorem exec_assumeUniqueNames (s : Session β) :
    exec assumeUniqueNames s = exec (commit [uniqueNames s.sorts]) s := by
  unfold assumeUniqueNames
  rw [exec_bind, exec_get]
  rfl

theorem exec_unfoldGrounded_ok (s : Session β) (grounded : List Grounded) :
    exec (unfoldGrounded (.ok grounded)) s = exec (commit grounded) (s.unfolded grounded.length) := by
  unfold unfoldGrounded
  rw [exec_bind, exec_orFail_ok]
  dsimp only
  rw [exec_bind, exec_modify]
  rfl

/-- What an operation may do to the instance. -/
inductive Acts (s : Session β) (op : Operation) (u : Session β) : Prop where
  | leaves (h : SameInstance s u)
  /-- The grounded rules are those of its pass.  Something may have been counted before. -/
  | commits {t : Session β} (h : SameInstance s t) {grounded : List Grounded}
      (hpass : s.pass op = .ok grounded) (heq : u = (exec (commit grounded) t).2)
  | asserts (text : String) (polarity : Bool) (hop : op = .assertAtom text polarity)
      (heq : u = (exec (assertAtom text polarity) s).2)
  | decides (assumptions : List String) (heq : u = (exec (solveWith assumptions) s).2)
  | resets (heq : u = (exec reset s).2)

theorem acts_unfoldGrounded (s : Session β) (op : Operation) :
    s.Acts op (exec (unfoldGrounded (s.pass op)) s).2 := by
  cases hpass : s.pass op with
  | error e => exact .leaves (SameInstance.refl s)
  | ok grounded =>
    rw [exec_unfoldGrounded_ok]
    exact .commits (t := s.unfolded grounded.length) ⟨rfl, rfl, rfl, Or.inl rfl⟩ hpass rfl

/-- There is no more to an operation than that, as far as the instance goes. -/
theorem acts_after (s : Session β) (op : Operation) : s.Acts op (s.after op) := by
  cases op with
  | unfoldRule rule =>
    show s.Acts _ (exec (unfoldRestricted rule []) s).2
    rw [exec_unfoldRestricted]
    exact s.acts_unfoldGrounded (.unfoldRule rule)
  | unfoldRestricted rule restrictions =>
    show s.Acts _ (exec (Session.unfoldRestricted rule restrictions) s).2
    rw [exec_unfoldRestricted]
    exact s.acts_unfoldGrounded _
  | unfoldInstance =>
    show s.Acts _ (exec Session.unfoldInstance s).2
    rw [exec_unfoldInstance]
    exact s.acts_unfoldGrounded _
  | assumeUniqueNames =>
    refine .commits (SameInstance.refl s) rfl ?_
    rw [← exec_assumeUniqueNames]
    rfl
  | addGroundClause kind clause => exact .commits (SameInstance.refl s) rfl rfl
  | assertAtom text polarity => exact .asserts text polarity rfl rfl
  | solveWith assumptions => exact .decides assumptions rfl
  | reset => exact .resets rfl
  | _ => exact .leaves (s.sameInstance_after trivial)

/-- Every operation keeps the session coherent. -/
theorem Coherent.after {holds : β → List Clause → Prop} (hfollows : Backend.Follows holds)
    {s : Session β} (h : s.Coherent holds) (op : Operation) : (s.after op).Coherent holds := by
  cases s.acts_after op with
  | leaves hsame => exact ofInstance_coherent holds _ _ hsame h
  | @commits _ hsame grounded _ heq =>
    rw [heq]
    exact Coherent.commit hfollows grounded _ (ofInstance_coherent holds _ _ hsame h)
  | asserts text polarity _ heq =>
    rw [heq]
    exact keeps_assertAtom hfollows text polarity s h
  | decides assumptions heq =>
    rw [heq]
    exact keeps_solveWith hfollows assumptions s h
  | resets heq =>
    rw [heq]
    exact keeps_reset hfollows s h

end Acts

end Session

end Groundwork
